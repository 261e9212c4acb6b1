import Mathlib.Algebra.BigOperators.Group.List.Basic
import Mathlib.Algebra.Order.Ring.Int
import NetLib.Group.Order
/-!
# The pace of `OnUpdate`

A group with the clock. `NeedUpdate` compares the clock with `_nextUpdate`,
which moves on by `_loopMs` when `OnUpdate` returns: a group that is late calls
`OnUpdate` until it has made up for it. Workers and callers of `Enqueue` may all
run `Update`, at any time and from its own callbacks too; `_isRun` lets one of
them in, so no call is made early or twice, and whoever leaves the loop leaves
none behind.
-/

namespace NetLib

namespace Group

variable {Job : Type}

/-! ## The clock -/

/-- The clock, and what a group compares it with; all in milliseconds. -/
structure Pace where
  /-- `steady_clock::now()` -/
  now : ℤ
  nextUpdate : ℤ
  loopMs : ℤ
  /-- History: when `OnUpdate` was called. -/
  updates : List ℤ
  /-- History: what was added to `_nextUpdate`. -/
  steps : List ℤ

namespace Pace

def needUpdate (p : Pace) : Bool := decide (p.nextUpdate ≤ p.now)

def pass (p : Pace) (d : ℕ) : Pace := { p with now := p.now + d }

def setLoopMs (p : Pace) (loopMs : ℤ) : Pace := { p with loopMs := loopMs }

/-- `OnUpdate` is called. -/
def called (p : Pace) : Pace := { p with updates := p.updates ++ [p.now] }

/-- `OnUpdate` has returned: `_nextUpdate += milliseconds(_loopMs)`. -/
def returned (p : Pace) : Pace :=
  { p with nextUpdate := p.nextUpdate + p.loopMs, steps := p.steps ++ [p.loopMs] }

/-- The group keeps its pace since `first`, when the first `OnUpdate` was due. -/
structure Kept (first : ℤ) (p : Pace) : Prop where
  next : p.nextUpdate = first + p.steps.sum
  /-- No call is early. -/
  due : ∀ k t, p.updates[k]? = some t → first + (p.steps.take k).sum ≤ t ∧ t ≤ p.now
  /-- All calls but the last have returned. -/
  le : p.steps.length ≤ p.updates.length
  lt : p.updates.length ≤ p.steps.length + 1

section Kept

variable {first : ℤ} {p : Pace}

theorem Kept.pass (h : Kept first p) (d : ℕ) : Kept first (p.pass d) := by
  refine ⟨h.next, fun k t hk => ?_, h.le, h.lt⟩
  obtain ⟨hdue, hnow⟩ := h.due k t hk
  have hlater : p.now ≤ (p.pass d).now := by
    change p.now ≤ p.now + d
    omega
  exact ⟨hdue, hnow.trans hlater⟩

theorem Kept.setLoopMs (h : Kept first p) (ms : ℤ) : Kept first (p.setLoopMs ms) :=
  ⟨h.next, h.due, h.le, h.lt⟩

/-- `OnUpdate` is called when all calls before have returned, and the time has
come. -/
theorem Kept.called (h : Kept first p) (hlen : p.updates.length = p.steps.length)
    (hneed : p.needUpdate = true) : Kept first p.called := by
  have hlate : p.nextUpdate ≤ p.now := of_decide_eq_true hneed
  have hnext := h.next
  have hlength : p.called.updates.length = p.updates.length + 1 := List.length_append
  refine ⟨h.next, fun k t hk => ?_, ?_, ?_⟩
  · change (p.updates ++ [p.now])[k]? = some t at hk
    rcases lt_or_ge k p.updates.length with hlt | hge
    · rw [List.getElem?_append_left hlt] at hk
      exact h.due k t hk
    · rw [List.getElem?_append_right hge] at hk
      obtain rfl : p.now = t := List.mem_singleton.1 (List.mem_of_getElem? hk) |>.symm
      have hall : p.called.steps.take k = p.steps := List.take_of_length_le (by
        change p.steps.length ≤ k
        omega)
      rw [hall]
      exact ⟨by omega, le_rfl⟩
  · change p.steps.length ≤ _
    omega
  · change _ ≤ p.steps.length + 1
    omega

theorem Kept.returned (h : Kept first p) (hlen : p.updates.length = p.steps.length + 1) :
    Kept first p.returned := by
  have hlength : p.returned.steps.length = p.steps.length + 1 := List.length_append
  refine ⟨?_, fun k t hk => ?_, ?_, ?_⟩
  · change p.nextUpdate + p.loopMs = first + (p.steps ++ [p.loopMs]).sum
    rw [List.sum_append, List.sum_singleton, h.next]
    omega
  · -- no call has waited for the step that is added
    have hlt : k < p.updates.length := (List.getElem?_eq_some_iff.1 hk).1
    have hbefore : p.returned.steps.take k = p.steps.take k :=
      List.take_append_of_le_length (by omega)
    rw [hbefore]
    exact h.due k t hk
  · change _ ≤ p.updates.length
    omega
  · change p.updates.length ≤ _
    omega

end Kept

end Pace

/-! ## The group -/

/-- A group and its clock. -/
structure Paced (Job : Type) where
  jobs : Jobs Job
  pace : Pace

namespace Paced

inductive Event (Job : Type)
  /-- Time goes by. -/
  | pass (d : ℕ)
  /-- `SetLoopMs` -/
  | setLoopMs (ms : ℤ)
  | group (e : Group.Event Job)
  deriving DecidableEq

/-- `NeedUpdate` answers by the clock. -/
def honest (p : Pace) : Group.Event Job → Pc Job → Bool
  | .due b, .orNeedUpdate _ | .due b, .needUpdate _ => b == p.needUpdate
  | _, _ => true

/-- What an access has to do with the pace: it calls `OnUpdate`, or comes back
from it. -/
def paceAfter (p : Pace) : Group.Event Job → Pc Job → Pace
  | .due true, .needUpdate _ => p.called
  | .go, .code (.update _) => p.returned
  | _, _ => p

def next (s : Paced Job) (q : Thread Job) : Event Job → Option (Paced Job × Thread Job)
  | .pass d => some ({ s with pace := s.pace.pass d }, q)
  | .setLoopMs ms => some ({ s with pace := s.pace.setLoopMs ms }, q)
  | .group e =>
    if honest s.pace e q.pc then
      (Group.next s.jobs q e).map fun r => (⟨r.1, paceAfter s.pace e q.pc⟩, r.2)
    else none

abbrev World (Job : Type) := Pool (Paced Job) (Thread Job)

abbrev step : World Job → ℕ × Event Job → Option (World Job) := Pool.step next

/-- A new group, whose first `OnUpdate` is due at `first`. -/
def World.initial [Inhabited Job] (n : ℕ) (now first loopMs : ℤ) : World Job where
  shared := ⟨(Group.World.initial 0 : Group.World Job).shared, ⟨now, first, loopMs, [], []⟩⟩
  threads := List.replicate n ⟨.code .outside, []⟩

end Paced

/-! ## One thread at a time -/

/-- How many calls of `OnUpdate` the thread is inside. -/
def Home.ticks : Home → ℕ
  | .outside => 0
  | .job _ home => home.ticks
  | .update home => home.ticks + 1

def Pc.ticks : Pc Job → ℕ
  | .code home | .retry home _ _ | .load home _ _ _ | .put home _ _ _ | .publish home _ _ _
  | .checkRun home | .exchangeRun home | .sizeHead home | .sizeTail home _ | .orNeedUpdate home
  | .needUpdate home | .endRun home | .dequeue _ home | .headLoad _ home _ | .cas _ home _
  | .take _ home _ | .clear _ home _ _ => home.ticks
  | .debugBreak => 0

theorem Home.ticks_le (home : Home) : home.ticks ≤ home.depth := by
  induction home with
  | outside => exact le_rfl
  | job jobs home ih =>
    unfold ticks depth
    omega
  | update home ih =>
    unfold ticks depth
    omega

namespace Paced

variable {w w' : World Job} {i : ℕ} {e : Event Job} {q q' : Thread Job} {first : ℤ}

/-- At most one thread is inside `Update`, which knows whether a call of
`OnUpdate` is under way. -/
structure Inv (first : ℤ) (w : World Job) : Prop where
  pace : w.shared.pace.Kept first
  running : w.total Thread.depth ≤ if w.shared.jobs.isRun then 1 else 0
  inside : ∀ q ∈ w.threads, 0 < q.depth →
    w.shared.pace.updates.length = w.shared.pace.steps.length + q.pc.ticks
  idle : w.shared.jobs.isRun = false →
    w.shared.pace.updates.length = w.shared.pace.steps.length

section Step

theorem Inv.total_le (h : Inv first w) : w.total Thread.depth ≤ 1 := by
  have hrunning := h.running
  split at hrunning <;> omega

/-- A thread inside `Update` is the only one. -/
theorem Inv.others (h : Inv first w) (hq : w.threads[i]? = some q) (hpos : 0 < q.depth)
    {j : ℕ} {r : Thread Job} (hij : i ≠ j) (hr : w.threads[j]? = some r) : r.depth = 0 :=
  Pool.eq_zero_of_other (h.total_le.trans hpos) hij hq hr

/-- A thread inside `Update` was not there when it entered. -/
theorem Inv.outermost (h : Inv first w) (hq : w.threads[i]? = some q) {home : Home}
    (hdepth : q.depth = home.depth + 1) : home.ticks = 0 := by
  have hle := Pool.le_total Thread.depth (List.mem_of_getElem? hq)
  have htotal := h.total_le
  have hticks := home.ticks_le
  omega

/-- The steps that leave the clock and `_isRun`. -/
theorem Inv.quiet (h : Inv first w) (hq : w.threads[i]? = some q)
    (ht : w'.threads = w.threads.set i q') (hpace : w'.shared.pace = w.shared.pace)
    (hrun : w'.shared.jobs.isRun = w.shared.jobs.isRun) (hdepth : q'.depth ≤ q.depth)
    (hticks : 0 < q'.depth → q'.pc.ticks = q.pc.ticks) : Inv first w' := by
  have htotal := Pool.total_step (e := (i, ())) Thread.depth hq ht
  have hrunning := h.running
  refine ⟨by rw [hpace]; exact h.pace, ?_, ?_, ?_⟩
  · rw [hrun]
    omega
  · rw [hpace]
    refine Pool.forall_threads (e := (i, ())) ht h.inside fun hpos => ?_
    rw [hticks hpos]
    exact h.inside q (List.mem_of_getElem? hq) (hpos.trans_le hdepth)
  · rw [hrun, hpace]
    exact h.idle

/-- The steps of the clock. -/
theorem Inv.clock (h : Inv first w) (hq : w.threads[i]? = some q)
    (ht : w'.threads = w.threads.set i q) (hjobs : w'.shared.jobs = w.shared.jobs)
    (hpace : w'.shared.pace.Kept first)
    (hupdates : w'.shared.pace.updates = w.shared.pace.updates)
    (hsteps : w'.shared.pace.steps = w.shared.pace.steps) : Inv first w' := by
  obtain ⟨hlt, rfl⟩ := List.getElem?_eq_some_iff.1 hq
  rw [List.set_getElem_self hlt] at ht
  refine ⟨hpace, ?_, ?_, ?_⟩
  · rw [hjobs, Pool.total, ht]
    exact h.running
  · rw [hupdates, hsteps, ht]
    exact h.inside
  · rw [hupdates, hsteps, hjobs]
    exact h.idle

/-- The two ends of `OnUpdate`. -/
theorem Inv.onUpdate (h : Inv first w) (hq : w.threads[i]? = some q)
    (ht : w'.threads = w.threads.set i q') (hjobs : w'.shared.jobs = w.shared.jobs)
    (hpace : w'.shared.pace.Kept first) (hpos : 0 < q.depth) (hdepth : q'.depth = q.depth)
    (hlen : w'.shared.pace.updates.length = w'.shared.pace.steps.length + q'.pc.ticks) :
    Inv first w' := by
  have htotal := Pool.total_step (e := (i, ())) Thread.depth hq ht
  have hle := Pool.le_total Thread.depth (List.mem_of_getElem? hq)
  have hrunning := h.running
  refine ⟨hpace, ?_, ?_, ?_⟩
  · rw [hjobs]
    omega
  · intro r hr hr'
    obtain ⟨j, hj⟩ := List.mem_iff_getElem?.1 hr
    rw [ht] at hj
    by_cases hij : i = j
    · subst hij
      obtain ⟨hlt, -⟩ := List.getElem?_eq_some_iff.1 hq
      rw [List.getElem?_set_self hlt] at hj
      obtain rfl := Option.some.inj hj
      exact hlen
    · rw [List.getElem?_set_ne hij] at hj
      have hzero := h.others hq hpos hij hj
      omega
  · intro hidle
    rw [hjobs] at hidle
    rw [hidle, if_neg Bool.false_ne_true] at hrunning
    omega

/-- **Every step keeps the pace**, whoever makes it. -/
theorem Inv.step (h : Inv first w) (hst : Paced.step w (i, e) = some w') : Inv first w' := by
  obtain ⟨q, q', hq, hnext, ht⟩ := Pool.step_eq_some hst
  have hmem := List.mem_of_getElem? hq
  cases e with
  | pass d =>
    obtain ⟨hs, rfl⟩ := Prod.mk.inj (Option.some.inj hnext)
    exact h.clock hq ht (by rw [← hs]) (by rw [← hs]; exact h.pace.pass d) (by rw [← hs]; rfl)
      (by rw [← hs]; rfl)
  | setLoopMs ms =>
    obtain ⟨hs, rfl⟩ := Prod.mk.inj (Option.some.inj hnext)
    exact h.clock hq ht (by rw [← hs]) (by rw [← hs]; exact h.pace.setLoopMs ms)
      (by rw [← hs]; rfl) (by rw [← hs]; rfl)
  | group e =>
    change (if honest w.shared.pace e q.pc then _ else none) = _ at hnext
    split at hnext
    case isFalse => cases hnext
    case isTrue hhonest =>
    obtain ⟨⟨s, r⟩, hr, heq⟩ := Option.map_eq_some_iff.1 hnext
    obtain ⟨hs, rfl⟩ := Prod.mk.inj heq
    obtain ⟨⟨s', pc', c⟩, haccess, heq'⟩ := Option.map_eq_some_iff.1 hr
    obtain ⟨rfl, rfl⟩ := Prod.mk.inj heq'
    have hjobs : w'.shared.jobs = s' := (congrArg Paced.jobs hs).symm
    have hpace : w'.shared.pace = paceAfter w.shared.pace e q.pc := (congrArg Paced.pace hs).symm
    clear hs hnext hr heq heq'
    obtain ⟨pc, mine⟩ := q
    -- the accesses that have nothing to do with the pace
    have hquiet (hsame : paceAfter w.shared.pace e pc = w.shared.pace)
        (hrun : s'.isRun = w.shared.jobs.isRun) (hdepth : pc'.depth ≤ pc.depth)
        (hticks : 0 < pc'.depth → pc'.ticks = pc.ticks) : Inv first w' :=
      h.quiet hq ht (hpace.trans hsame) ((congrArg Jobs.isRun hjobs).trans hrun) hdepth hticks
    cases action_of_access haccess with
    | run | limit | back | gone | isRun | notRun | sizeHead | hasJob | noJob | orDue
    | notDue | noUpdate | enqueue | retry | refused | vacant | put | dequeue | used | unused | won
    | lost | take | cleared => exact hquiet rfl rfl le_rfl fun _ => rfl
    | published | clear => exact hquiet rfl rfl (Nat.zero_le _) nofun
    | @publish home call update t _ =>
      cases update with
      | true => exact hquiet rfl rfl le_rfl fun _ => rfl
      | false => exact hquiet rfl rfl le_rfl fun _ => rfl
    | isRunning hrun => exact hquiet rfl hrun.symm le_rfl fun _ => rfl
    | @updated home =>
      have hin := h.inside _ hmem (Nat.succ_pos _)
      have hzero : home.ticks = 0 := h.outermost hq rfl
      change _ = _ + (home.ticks + 1) at hin
      refine h.onUpdate hq ht hjobs ?_ (Nat.succ_pos _) rfl ?_
      · rw [hpace]
        exact h.pace.returned (by omega)
      · rw [hpace]
        change w.shared.pace.updates.length =
          (w.shared.pace.steps ++ [w.shared.pace.loopMs]).length + home.ticks
        rw [List.length_append, List.length_singleton]
        omega
    | @onUpdate home =>
      have hin := h.inside _ hmem (Nat.succ_pos _)
      have hzero : home.ticks = 0 := h.outermost hq rfl
      have hneed : w.shared.pace.needUpdate = true := (eq_of_beq hhonest).symm
      change _ = _ + home.ticks at hin
      refine h.onUpdate hq ht hjobs ?_ (Nat.succ_pos _) rfl ?_
      · rw [hpace]
        exact h.pace.called (by omega) hneed
      · rw [hpace]
        change (w.shared.pace.updates ++ [w.shared.pace.now]).length =
          w.shared.pace.steps.length + (home.ticks + 1)
        rw [List.length_append, List.length_singleton]
        omega
    | @startRun home hrun =>
      have htotal := Pool.total_step (e := (i, ())) Thread.depth hq ht
      have hnone : w.total Thread.depth ≤ 0 := by
        have hrunning := h.running
        rwa [hrun, if_neg Bool.false_ne_true] at hrunning
      have hdepth : home.depth ≤ 0 := (Pool.le_total Thread.depth hmem).trans hnone
      have hticks := home.ticks_le
      change _ + home.depth = _ + (home.depth + 1) at htotal
      change w'.shared.pace = w.shared.pace at hpace
      refine ⟨by rw [hpace]; exact h.pace, ?_, ?_, ?_⟩
      · rw [hjobs, if_pos rfl]
        omega
      · rw [hpace]
        refine Pool.forall_threads (e := (i, ())) ht h.inside fun _ => ?_
        change _ = _ + home.ticks
        rw [Nat.le_zero.1 (hticks.trans hdepth)]
        exact h.idle hrun
      · intro hidle
        rw [hjobs] at hidle
        cases hidle
    | @endRun home =>
      have htotal := Pool.total_step (e := (i, ())) Thread.depth hq ht
      have hle := h.total_le
      have hin := h.inside _ hmem (Nat.succ_pos _)
      have hzero : home.ticks = 0 := h.outermost hq rfl
      change _ + (home.depth + 1) = _ + home.depth at htotal
      change _ = _ + home.ticks at hin
      change w'.shared.pace = w.shared.pace at hpace
      refine ⟨by rw [hpace]; exact h.pace, by omega, ?_, ?_⟩
      · intro r hr hpos
        have := Pool.le_total Thread.depth hr
        omega
      · intro _
        rw [hpace]
        omega

theorem Inv.initial [Inhabited Job] (n : ℕ) (now first loopMs : ℤ) :
    Inv first (World.initial n now first loopMs : World Job) := by
  have hidle : ∀ q ∈ (World.initial n now first loopMs : World Job).threads,
      q = ⟨.code .outside, []⟩ := fun q hq => (List.mem_replicate.1 hq).2
  refine ⟨⟨?_, nofun, le_rfl, Nat.zero_le _⟩, ?_, ?_, fun _ => rfl⟩
  · exact (add_zero first).symm
  · rw [Pool.total_of_forall_eq hidle rfl]
    exact Nat.zero_le _
  · intro q hq hpos
    rw [hidle q hq] at hpos
    exact absurd hpos (lt_irrefl 0)

end Step

/-! ## How often `OnUpdate` is called -/

/-- `OnUpdate` is called on time. -/
structure OnTime (first : ℤ) (w : World Job) : Prop where
  /-- No call is made before all calls before it have returned, and the steps they
  have made have gone by: -/
  due : ∀ k t, w.shared.pace.updates[k]? = some t →
    first + (w.shared.pace.steps.take k).sum ≤ t ∧ k ≤ w.shared.pace.steps.length
  /-- and whoever leaves `Update` has made all calls that were due. -/
  done : ∀ i q w', w.threads[i]? = some q → (∃ home, q.pc = .orNeedUpdate home) →
    step w (i, .group (.due false)) = some w' →
    w.shared.pace.updates.length = w.shared.pace.steps.length ∧
      w.shared.pace.now < first + w.shared.pace.steps.sum

theorem Inv.onTime (h : Inv first w) : OnTime first w where
  due := by
    intro k t hk
    have hlt : k < w.shared.pace.updates.length := (List.getElem?_eq_some_iff.1 hk).1
    have hle := h.pace.lt
    exact ⟨(h.pace.due k t hk).1, by omega⟩
  done := by
    rintro i ⟨pc, mine⟩ w' hq ⟨home, rfl⟩ hst
    obtain ⟨q, q', hq', hnext, -⟩ := Pool.step_eq_some hst
    obtain rfl := Option.some.inj (hq'.symm.trans hq)
    change (if honest w.shared.pace _ _ then _ else none) = _ at hnext
    split at hnext
    case isFalse => cases hnext
    case isTrue hhonest =>
    have hneed : w.shared.pace.needUpdate = false := (eq_of_beq hhonest).symm
    have hearly : ¬w.shared.pace.nextUpdate ≤ w.shared.pace.now := of_decide_eq_false hneed
    have hin := h.inside _ (List.mem_of_getElem? hq) (Nat.succ_pos _)
    have hzero : home.ticks = 0 := h.outermost hq rfl
    have hlast := h.pace.next
    change _ = _ + home.ticks at hin
    exact ⟨by omega, by omega⟩

/-- **`OnUpdate` is called on time**, whatever workers and callbacks do. -/
theorem onTime_of_runs [Inhabited Job] (n : ℕ) (now first loopMs : ℤ) {w : World Job}
    (h : Runs step (fun _ _ _ => True) (World.initial n now first loopMs) w) : OnTime first w :=
  (h.invariant (Inv.initial n now first loopMs) fun hinv hst _ => hinv.step hst).onTime

/-- A worker comes in at 25 and is two calls late; another worker that comes in
between the two is turned away. -/
def late : List (ℕ × Event ℕ) :=
  [(0, .pass 25), (0, .group .run), (0, .group .go), (0, .group .go), (0, .group .go),
   (0, .group (.due true)), (0, .group .go), (0, .group .go), (0, .group (.due true)),
   (1, .group .run), (1, .group .go), (0, .group .go), (0, .group .go), (0, .group .go),
   (0, .group (.due true)), (0, .group .go), (0, .group .go), (0, .group (.due true)),
   (0, .group .go), (0, .group .go), (0, .group .go)]

/-- It has made both calls, and is about to leave. -/
theorem exec_late : ∃ w q w', exec step (World.initial 2 0 10 10) late = some w ∧
    w.shared.pace.updates = [25, 25] ∧ w.threads[0]? = some q ∧ q.pc = .orNeedUpdate .outside ∧
    step w (0, .group (.due false)) = some w' := by
  obtain ⟨w, hw, heq⟩ := Option.map_eq_some_iff.1
    (show (exec step (World.initial 2 0 10 10) late).map
      (fun w => (w.shared.pace.updates, w.threads[0]?.map Thread.pc,
        (step w (0, .group (.due false))).isSome)) =
      some ([25, 25], some (.orNeedUpdate .outside), true) by rfl)
  obtain ⟨hupdates, heq'⟩ := Prod.mk.inj heq
  obtain ⟨hpc, hsome⟩ := Prod.mk.inj heq'
  obtain ⟨q, hq, hpc⟩ := Option.map_eq_some_iff.1 hpc
  obtain ⟨w', hst⟩ := Option.isSome_iff_exists.1 hsome
  exact ⟨w, q, w', hw, hupdates, hq, hpc, hst⟩

theorem onTime_of_runs_late : ∃ w : World ℕ,
    exec step (World.initial 2 0 10 10) late = some w ∧ OnTime 10 w ∧
      w.shared.pace.updates = [25, 25] := by
  obtain ⟨w, -, -, hw, hupdates, -⟩ := exec_late
  exact ⟨w, hw, onTime_of_runs 2 0 10 10 (.of_exec hw), hupdates⟩

/-! ## A group that leaves `_loopMs` alone -/

/-- Nobody calls `SetLoopMs`. -/
def Steady (_ : World Job) (e : ℕ × Event Job) (_ : World Job) : Prop :=
  match e.2 with
  | .setLoopMs _ => False
  | _ => True

instance decidableSteady (w : World Job) (e : ℕ × Event Job) (w' : World Job) :
    Decidable (Steady w e w') := by
  unfold Steady
  split <;> infer_instance

theorem paceAfter_steps {p : Pace} {e : Group.Event Job} {pc : Pc Job} {loopMs : ℤ}
    (hsteps : ∀ ms ∈ p.steps, ms = loopMs) (hloop : p.loopMs = loopMs) :
    (∀ ms ∈ (paceAfter p e pc).steps, ms = loopMs) ∧ (paceAfter p e pc).loopMs = loopMs := by
  unfold paceAfter
  split
  · exact ⟨hsteps, hloop⟩
  · refine ⟨fun ms hms => ?_, hloop⟩
    rcases List.mem_append.1 hms with hold | hnew
    · exact hsteps ms hold
    · exact (List.mem_singleton.1 hnew).trans hloop
  · exact ⟨hsteps, hloop⟩

theorem steps_of_steady {loopMs : ℤ} (hst : step w (i, e) = some w') (hsteady : Steady w (i, e) w')
    (h : (∀ ms ∈ w.shared.pace.steps, ms = loopMs) ∧ w.shared.pace.loopMs = loopMs) :
    (∀ ms ∈ w'.shared.pace.steps, ms = loopMs) ∧ w'.shared.pace.loopMs = loopMs := by
  obtain ⟨q, q', -, hnext, -⟩ := Pool.step_eq_some hst
  cases e with
  | pass d =>
    obtain ⟨hs, -⟩ := Prod.mk.inj (Option.some.inj hnext)
    rw [← hs]
    exact h
  | setLoopMs ms => exact absurd hsteady not_false
  | group e =>
    change (if honest w.shared.pace e q.pc then _ else none) = _ at hnext
    split at hnext
    case isFalse => cases hnext
    case isTrue =>
    obtain ⟨r, -, heq⟩ := Option.map_eq_some_iff.1 hnext
    obtain ⟨hs, -⟩ := Prod.mk.inj heq
    rw [← hs]
    exact paceAfter_steps h.1 h.2

/-- **The `k`-th call of `OnUpdate` is made after `k` loops**, and whoever leaves
`Update` has made it if they have gone by. -/
theorem updates_of_steady [Inhabited Job] (n : ℕ) (now first loopMs : ℤ) (hpos : 0 < loopMs)
    {w : World Job} (h : Runs step Steady (World.initial n now first loopMs) w) :
    (∀ k < w.shared.pace.updates.length, first + k * loopMs ≤ w.shared.pace.now) ∧
      ∀ i q w', w.threads[i]? = some q → (∃ home, q.pc = .orNeedUpdate home) →
        step w (i, .group (.due false)) = some w' →
        ∀ k : ℕ, k < w.shared.pace.updates.length ↔ first + k * loopMs ≤ w.shared.pace.now := by
  have hinv : Inv first w :=
    h.invariant (Inv.initial n now first loopMs) fun hinv hst _ => hinv.step hst
  have hsteps : (∀ ms ∈ w.shared.pace.steps, ms = loopMs) ∧ w.shared.pace.loopMs = loopMs :=
    h.invariant (I := fun w => (∀ ms ∈ w.shared.pace.steps, ms = loopMs) ∧
      w.shared.pace.loopMs = loopMs) ⟨nofun, rfl⟩ fun hsteps hst hok =>
        steps_of_steady hst hok hsteps
  have hsum (l : List ℤ) (hl : l.Sublist w.shared.pace.steps) : l.sum = l.length * loopMs := by
    rw [List.eq_replicate_of_mem fun ms hms => hsteps.1 ms (hl.subset hms), List.sum_replicate,
      List.length_replicate, nsmul_eq_mul]
  have hbound : ∀ k < w.shared.pace.updates.length,
      first + k * loopMs ≤ w.shared.pace.now := by
    intro k hk
    have hdue := hinv.pace.due k _ (List.getElem?_eq_getElem hk)
    have hle := hinv.pace.lt
    rw [hsum _ (List.take_sublist k _), List.length_take, Nat.min_eq_left (by omega)] at hdue
    exact hdue.1.trans hdue.2
  refine ⟨hbound, fun i q w' hq hpc hst k => ⟨hbound k, fun hk => ?_⟩⟩
  obtain ⟨hlen, hearly⟩ := hinv.onTime.done i q w' hq hpc hst
  rw [hsum _ (List.Sublist.refl _)] at hearly
  have hlt : (k : ℤ) * loopMs < w.shared.pace.steps.length * loopMs := by omega
  have hk' : (k : ℤ) < w.shared.pace.steps.length := lt_of_mul_lt_mul_right hlt hpos.le
  omega

/-- The two calls were due after ten and twenty, and the third one, after thirty,
is not when the worker leaves. -/
theorem updates_of_steady_late : ∃ w w' : World ℕ,
    exec step (World.initial 2 0 10 10) late = some w ∧
      step w (0, .group (.due false)) = some w' ∧ w.shared.pace.updates.length = 2 ∧
      (∀ k < w.shared.pace.updates.length, 10 + k * 10 ≤ w.shared.pace.now) ∧
      ∀ k : ℕ, k < w.shared.pace.updates.length ↔ 10 + k * 10 ≤ w.shared.pace.now := by
  obtain ⟨w, q, w', hw, hupdates, hq, hpc, hst⟩ := exec_late
  obtain ⟨hearly, hleaves⟩ :=
    updates_of_steady 2 0 10 10 (by decide) (runs_of_exec hw (by decide +kernel))
  exact ⟨w, w', hw, hst, congrArg List.length hupdates, hearly,
    hleaves 0 q w' hq ⟨.outside, hpc⟩ hst⟩

end Paced

end Group

end NetLib
