import Mathlib.Data.Finset.Basic
import NetLib.Buffer.Protocol
import NetLib.Slot.Types
/-!
# `HandleJob`, one call

What one call of `Group::HandleJob` takes from the queue while others put more
jobs into it. After 1000 jobs it is to return, so that `Update` comes to
`OnUpdate`; the test is at the end of the loop, and the job of a session that
is not found any more goes around it.
-/

namespace NetLib

namespace HandleJob

/-- `Group::GroupJob::type` -/
inductive JobType
  | Recv
  | Enter
  | Move
  | Leave
  deriving DecidableEq

/-- `Group::GroupJob` -/
structure Job where
  type : JobType
  sessionId : SessionID
  errCode : ℤ
  transferred : ℕ
  deriving DecidableEq

/-- A call that `HandleJob` makes. -/
inductive Callee
  | OnEnter (id : SessionID)
  | OnLeave (id : SessionID) (errCode : ℤ)
  | CheckPostRelease (id : SessionID)
  | RecvHandler (header : Header) (id : SessionID) (transferred : ℕ)
  | Release (id : SessionID)
  deriving DecidableEq

/-- What `HandleJob` reads and writes of the group; `calls` is history. -/
structure Group where
  jobs : List Job
  sessions : Finset SessionID
  handledEnter : ℕ
  handledLeave : ℕ
  handledJob : ℕ
  calls : List Callee

/-- What goes on around the call. -/
structure Env where
  /-- The jobs that get into the queue between the `n`-th call of `Dequeue` and
  the next. -/
  arrivals : ℕ → List Job
  /-- Whether `FindSession` finds the session of the job handled `n`-th; both
  count from 0. -/
  found : ℕ → SessionID → Bool
  staticKey : SessionID → Byte

/-- Where the body of the loop goes on. -/
inductive Next
  | check
  | continue
  deriving DecidableEq

/-- `erase`, `OnLeave` and `CheckPostRelease`; `none` at the `__debugbreak()`
for a session that is not there. -/
def leave (g : Group) (job : Job) : Option (Group × Next) :=
  if job.sessionId ∈ g.sessions then
    some ({ g with
      sessions := g.sessions.erase job.sessionId
      calls := g.calls ++ [.OnLeave job.sessionId job.errCode, .CheckPostRelease job.sessionId] },
      .check)
  else none

/-- The `switch`, for the job handled `n`-th. -/
def handle (env : Env) (n : ℕ) (g : Group) (job : Job) : Option (Group × Next) :=
  match job.type with
  | .Enter => some ({ g with
      handledEnter := g.handledEnter + 1
      sessions := insert job.sessionId g.sessions
      calls := g.calls ++ [.OnEnter job.sessionId] }, .check)
  | .Leave => leave { g with handledLeave := g.handledLeave + 1 } job
  | .Move => leave g job
  | .Recv =>
    if env.found n job.sessionId then
      let header := if env.staticKey job.sessionId ≠ 0 then Header.NetHeader else Header.LANHeader
      some ({ g with calls := g.calls ++
        [.RecvHandler header job.sessionId job.transferred, .Release job.sessionId] }, .check)
    else some (g, .continue)

/-- How far a call has come, with the number of jobs dequeued. -/
inductive Outcome
  | returned (jobs : ℕ) (g : Group)
  | debugBreak (jobs : ℕ)
  | running (jobs : ℕ) (g : Group)

/-- What is behind the loop: `_handledJob` is updated. -/
def finish (jobs : ℕ) (g : Group) : Outcome :=
  .returned jobs { g with handledJob := g.handledJob + jobs }

/-- The loop, for so many rounds, with `jobs` jobs dequeued. -/
def loop (env : Env) : ℕ → ℕ → Group → Outcome
  | 0, jobs, g => .running jobs g
  | rounds + 1, jobs, g =>
    match g.jobs ++ env.arrivals jobs with
    | [] => finish jobs { g with jobs := [] }
    | job :: rest =>
      match handle env jobs { g with jobs := rest } job with
      | none => .debugBreak (jobs + 1)
      | some (g, .continue) => loop env rounds (jobs + 1) g
      | some (g, .check) =>
        if jobs + 1 = 1000 then finish (jobs + 1) g else loop env rounds (jobs + 1) g

/-- `HandleJob()`, seen for so many rounds of its loop. -/
def handleJob (env : Env) (rounds : ℕ) (g : Group) : Outcome := loop env rounds 0 g

/-- The call ends with at most 1000 jobs dequeued; and if it returns, with
that number added to `_handledJob`, which was `handledJob`. -/
def Outcome.Bounded (handledJob : ℕ) : Outcome → Prop
  | .returned jobs g => jobs ≤ 1000 ∧ g.handledJob = handledJob + jobs
  | .debugBreak jobs => jobs ≤ 1000
  | .running .. => False

/-! ## The jobs on their way -/

/-- What is in the queue and arrives before `n` more calls of `Dequeue`, the
next being the one after `k`. -/
def arrived (env : Env) (queue : List Job) (k n : ℕ) : List Job :=
  queue ++ (List.range' k n).flatMap env.arrivals

/-- The sessions in the group after the jobs. -/
def sessionsAfter (sessions : Finset SessionID) (jobs : List Job) : Finset SessionID :=
  jobs.foldl (fun sessions job => match job.type with
    | .Recv => sessions
    | .Enter => insert job.sessionId sessions
    | .Move | .Leave => sessions.erase job.sessionId) sessions

/-- With `k` jobs dequeued: each call of `Dequeue` up to the 1001st finds a
job, every session that is to leave before the 1000th job is there, and the
1000th is a `Recv` of a session that is not found. -/
structure Overruns (env : Env) (k : ℕ) (queue : List Job) (sessions : Finset SessionID) :
    Prop where
  busy : ∀ n, k + n ≤ 1000 → n < (arrived env queue k (n + 1)).length
  leaves : ∀ n, k + n < 999 → ∀ job, (arrived env queue k (n + 1))[n]? = some job →
    job.type = .Leave ∨ job.type = .Move →
    job.sessionId ∈ sessionsAfter sessions ((arrived env queue k (n + 1)).take n)
  lost : ∃ job, (arrived env queue k (1000 - k))[999 - k]? = some job ∧ job.type = .Recv ∧
    env.found 999 job.sessionId = false

variable {env : Env} {k n rounds : ℕ} {g : Group} {queue : List Job} {sessions : Finset SessionID}

/-- The first job, and those behind it. -/
theorem arrived_succ {job : Job} {rest : List Job} (h : queue ++ env.arrivals k = job :: rest) :
    arrived env queue k (n + 1) = job :: arrived env rest (k + 1) n := by
  rw [arrived, List.range'_succ, List.flatMap_cons, ← List.append_assoc, h]
  rfl

theorem sessionsAfter_cons (job : Job) (jobs : List Job) :
    sessionsAfter sessions (job :: jobs) = sessionsAfter (sessionsAfter sessions [job]) jobs := rfl

/-- The `switch` changes the sessions as the job says. -/
theorem handle_spec {job : Job} {next : Next} {g' : Group}
    (h : handle env k g job = some (g', next)) :
    g'.jobs = g.jobs ∧ g'.handledJob = g.handledJob ∧
      g'.sessions = sessionsAfter g.sessions [job] ∧
      (next = .continue ↔ job.type = .Recv ∧ env.found k job.sessionId = false) := by
  simp only [sessionsAfter, List.foldl_cons, List.foldl_nil]
  cases htype : job.type with
  | Recv =>
    simp only [handle, htype] at h
    split at h
    · obtain ⟨rfl, rfl⟩ := Prod.mk.inj (Option.some.inj h)
      simp_all
    · obtain ⟨rfl, rfl⟩ := Prod.mk.inj (Option.some.inj h)
      simp_all
  | Enter =>
    simp only [handle, htype] at h
    obtain ⟨rfl, rfl⟩ := Prod.mk.inj (Option.some.inj h)
    simp
  | Move =>
    simp only [handle, htype, leave] at h
    split at h
    · obtain ⟨rfl, rfl⟩ := Prod.mk.inj (Option.some.inj h)
      simp
    · simp at h
  | Leave =>
    simp only [handle, htype, leave] at h
    split at h
    · obtain ⟨rfl, rfl⟩ := Prod.mk.inj (Option.some.inj h)
      simp
    · simp at h

theorem handle_eq_none_iff (job : Job) : handle env k g job = none ↔
    (job.type = .Leave ∨ job.type = .Move) ∧ job.sessionId ∉ g.sessions := by
  cases htype : job.type with
  | Recv =>
    simp only [handle, htype]
    split <;> simp
  | Enter => simp [handle, htype]
  | Move => simp [handle, htype, leave]
  | Leave => simp [handle, htype, leave]

/-- One job less to overrun. -/
theorem overruns_succ {job : Job} {rest : List Job} (hk : k < 999)
    (h : queue ++ env.arrivals k = job :: rest)
    (hleave : job.type = .Leave ∨ job.type = .Move → job.sessionId ∈ sessions) :
    Overruns env k queue sessions ↔
      Overruns env (k + 1) rest (sessionsAfter sessions [job]) := by
  have hsucc (n : ℕ) := arrived_succ (n := n) h
  have hlast : 1000 - k = 1000 - (k + 1) + 1 := by omega
  have hindex : 999 - k = 999 - (k + 1) + 1 := by omega
  constructor
  · rintro ⟨hbusy, hleaves, job', hget, hlost⟩
    refine ⟨fun n hn => ?_, fun n hn job' hget hjob => ?_, job', ?_, hlost⟩
    · have := hbusy (n + 1) (by omega)
      rw [hsucc, List.length_cons] at this
      omega
    · have := hleaves (n + 1) (by omega) job'
      rw [hsucc, List.getElem?_cons_succ, List.take_succ_cons, sessionsAfter_cons] at this
      exact this hget hjob
    · rwa [hlast, hindex, hsucc, List.getElem?_cons_succ] at hget
  · rintro ⟨hbusy, hleaves, job', hget, hlost⟩
    refine ⟨fun n hn => ?_, fun n hn job' hget hjob => ?_, job', ?_, hlost⟩
    · rw [hsucc, List.length_cons]
      cases n with
      | zero => omega
      | succ n =>
        have := hbusy n (by omega)
        omega
    · cases n with
      | zero =>
        rw [hsucc, List.getElem?_cons_zero] at hget
        obtain rfl := Option.some.inj hget
        exact hleave hjob
      | succ n =>
        rw [hsucc, List.getElem?_cons_succ] at hget
        rw [hsucc, List.take_succ_cons, sessionsAfter_cons]
        exact hleaves n (by omega) job' hget hjob
    · rwa [hlast, hindex, hsucc, List.getElem?_cons_succ]

/-- The last job before the test. -/
theorem overruns_last_iff {job : Job} {rest : List Job}
    (h : queue ++ env.arrivals 999 = job :: rest) : Overruns env 999 queue sessions ↔
      (job.type = .Recv ∧ env.found 999 job.sessionId = false) ∧
        rest ++ env.arrivals 1000 ≠ [] := by
  have hsucc (n : ℕ) := arrived_succ (n := n) h
  have hnext : arrived env rest 1000 1 = rest ++ env.arrivals 1000 := by
    simp [arrived, List.range'_succ]
  constructor
  · rintro ⟨hbusy, -, job', hget, htype, hlost⟩
    have hbusy := hbusy 1 le_rfl
    rw [hsucc, hnext, List.length_cons] at hbusy
    rw [hsucc, List.getElem?_cons_zero] at hget
    obtain rfl := Option.some.inj hget
    exact ⟨⟨htype, hlost⟩, List.length_pos_iff.1 (by omega)⟩
  · rintro ⟨⟨htype, hlost⟩, hnil⟩
    refine ⟨fun n hn => ?_, fun n hn => absurd hn (by omega), job, ?_, htype, hlost⟩
    · have := List.length_pos_iff.2 hnil
      rw [hsucc, List.length_cons]
      obtain rfl | rfl : n = 0 ∨ n = 1 := by omega
      · omega
      · rw [hnext]
        omega
    · rw [hsucc, List.getElem?_cons_zero]

theorem not_overruns_of_nil (hk : k ≤ 1000) (h : queue ++ env.arrivals k = []) :
    ¬Overruns env k queue sessions := fun hover => by
  have := hover.busy 0 (by omega)
  simp [arrived, List.range'_succ, h] at this

/-! ## The loop -/

variable {handledJob : ℕ}

/-- An empty queue ends the loop. -/
theorem bounded_of_nil (hk : k ≤ 1000) (h : g.jobs ++ env.arrivals k = []) :
    ∃ rounds, (loop env rounds k g).Bounded g.handledJob := by
  refine ⟨1, ?_⟩
  rw [loop, h]
  exact ⟨hk, rfl⟩

/-- So does the `__debugbreak()`. -/
theorem bounded_of_none {job : Job} {rest : List Job} (hk : k < 1000)
    (hjobs : g.jobs ++ env.arrivals k = job :: rest)
    (h : handle env k { g with jobs := rest } job = none) :
    ∃ rounds, (loop env rounds k g).Bounded handledJob := by
  refine ⟨1, ?_⟩
  rw [loop, hjobs]
  simp only [h]
  exact hk

/-- A round that goes on with the next job. -/
theorem loop_next {job : Job} {rest : List Job} {g' : Group} {next : Next}
    (hjobs : g.jobs ++ env.arrivals k = job :: rest)
    (h : handle env k { g with jobs := rest } job = some (g', next))
    (hnext : next = .continue ∨ k + 1 ≠ 1000) (rounds : ℕ) :
    loop env (rounds + 1) k g = loop env rounds (k + 1) g' := by
  rw [loop, hjobs]
  simp only [h]
  cases next with
  | check => exact if_neg (hnext.resolve_left (by decide))
  | «continue» => rfl

/-- A round that goes on may as well be left out. -/
theorem exists_rounds_iff {P : Outcome → Prop} {g' : Group} (hrunning : ¬P (.running k g))
    (h : ∀ rounds, loop env (rounds + 1) k g = loop env rounds (k + 1) g') :
    (∃ rounds, P (loop env rounds k g)) ↔ ∃ rounds, P (loop env rounds (k + 1) g') := by
  constructor
  · rintro ⟨rounds, hp⟩
    cases rounds with
    | zero => exact absurd hp hrunning
    | succ rounds => exact ⟨rounds, h rounds ▸ hp⟩
  · rintro ⟨rounds, hp⟩
    exact ⟨rounds + 1, (h rounds).symm ▸ hp⟩

/-- **Past 1000 jobs nothing stops the loop** but an empty queue. -/
theorem not_bounded_of_lt (hk : 1000 < k) : ¬(loop env rounds k g).Bounded handledJob := by
  induction rounds generalizing k g with
  | zero => exact id
  | succ rounds ih =>
    rw [loop]
    split
    · exact fun h => absurd h.1 (by omega)
    · split
      · exact fun h : k + 1 ≤ 1000 => absurd h (by omega)
      · exact ih (by omega)
      · rw [if_neg (by omega)]
        exact ih (by omega)

/-- With 1000 jobs dequeued, another one is too many. -/
theorem bounded_thousand_iff (env : Env) (g : Group) :
    (∃ rounds, (loop env rounds 1000 g).Bounded g.handledJob) ↔
      g.jobs ++ env.arrivals 1000 = [] := by
  constructor
  · rintro ⟨rounds, hbounded⟩
    cases rounds with
    | zero => exact absurd hbounded id
    | succ rounds =>
      rw [loop] at hbounded
      split at hbounded
      · assumption
      · split at hbounded
        · exact absurd (show 1000 + 1 ≤ 1000 from hbounded) (by decide)
        · exact absurd hbounded (not_bounded_of_lt (by decide))
        · rw [if_neg (by decide)] at hbounded
          exact absurd hbounded (not_bounded_of_lt (by decide))
  · exact bounded_of_nil le_rfl

/-- **When the loop is bounded**, with `left` jobs to go before the last one
that is tested. -/
theorem loop_bounded_iff (left : ℕ) : ∀ {k : ℕ} {g : Group}, k + left = 999 →
    ((∃ rounds, (loop env rounds k g).Bounded g.handledJob) ↔
      ¬Overruns env k g.jobs g.sessions) := by
  induction left with
  | zero =>
    rintro k g rfl
    cases hjobs : g.jobs ++ env.arrivals 999 with
    | nil =>
      exact iff_of_true (bounded_of_nil (by decide) hjobs) (not_overruns_of_nil (by decide) hjobs)
    | cons job rest =>
      rw [overruns_last_iff hjobs]
      cases hhandle : handle env 999 { g with jobs := rest } job with
      | none =>
        obtain ⟨htype, -⟩ := (handle_eq_none_iff job).1 hhandle
        refine iff_of_true (bounded_of_none (by decide) hjobs hhandle) fun hover => ?_
        rcases htype with htype | htype
        · exact absurd (htype.symm.trans hover.1.1) (by decide)
        · exact absurd (htype.symm.trans hover.1.1) (by decide)
      | some r =>
        obtain ⟨g', next⟩ := r
        obtain ⟨hrest, hhandled, -, hnext⟩ := handle_spec hhandle
        cases next with
        | check =>
          refine iff_of_true ⟨1, ?_⟩ fun hover => absurd (hnext.2 hover.1) (by decide)
          rw [loop, hjobs]
          simp only [hhandle]
          rw [if_pos trivial]
          exact ⟨le_refl 1000, congrArg (· + 1000) hhandled⟩
        | «continue» =>
          -- the test is left out
          rw [exists_rounds_iff (P := Outcome.Bounded g.handledJob) id
            (loop_next hjobs hhandle (.inl rfl)), and_iff_right (hnext.1 rfl), not_not]
          have hthousand := bounded_thousand_iff env g'
          rwa [hhandled, hrest] at hthousand
  | succ left ih =>
    intro k g hk
    cases hjobs : g.jobs ++ env.arrivals k with
    | nil =>
      exact iff_of_true (bounded_of_nil (by omega) hjobs) (not_overruns_of_nil (by omega) hjobs)
    | cons job rest =>
      cases hhandle : handle env k { g with jobs := rest } job with
      | none =>
        refine iff_of_true (bounded_of_none (by omega) hjobs hhandle) fun hover => ?_
        obtain ⟨htype, hgone⟩ := (handle_eq_none_iff job).1 hhandle
        have hget : (arrived env g.jobs k (0 + 1))[0]? = some job := by
          rw [arrived_succ hjobs, List.getElem?_cons_zero]
        exact hgone (hover.leaves 0 (by omega) job hget htype)
      | some r =>
        obtain ⟨g', next⟩ := r
        obtain ⟨hrest, hhandled, hsessions, -⟩ := handle_spec hhandle
        rw [exists_rounds_iff (P := Outcome.Bounded g.handledJob) id
          (loop_next hjobs hhandle (.inr (by omega)))]
        have hstep := ih (k := k + 1) (g := g') (by omega)
        rw [hrest, hhandled, hsessions] at hstep
        refine hstep.trans (not_congr (overruns_succ (by omega) hjobs fun htype => ?_).symm)
        by_contra hgone
        have hnone : handle env k { g with jobs := rest } job = none :=
          (handle_eq_none_iff job).2 ⟨htype, hgone⟩
        rw [hhandle] at hnone
        exact absurd hnone (by simp)

/-- **A call is bounded if and only if** the 1000th job is not the `Recv` of a
session that is gone, with one more job behind it. -/
theorem handleJob_bounded_iff (env : Env) (g : Group) :
    (∃ rounds, (handleJob env rounds g).Bounded g.handledJob) ↔
      ¬Overruns env 0 g.jobs g.sessions :=
  loop_bounded_iff 999 rfl

/-- A `Recv` of a session that is gone. -/
def lostRecv : Job := ⟨.Recv, ⟨0, 0⟩, -1, 0⟩

/-- Nothing arrives, and no session is found. -/
def quiet : Env := ⟨fun _ => [], fun _ _ => false, fun _ => 0⟩

def lostJobs (n : ℕ) : Group := ⟨List.replicate n lostRecv, ∅, 0, 0, 0, []⟩

theorem loop_lostJobs (n k : ℕ) :
    loop quiet (n + 1) k (lostJobs n) = finish (k + n) (lostJobs 0) := by
  induction n generalizing k with
  | zero => rfl
  | succ n ih =>
    have hround : loop quiet (n + 1 + 1) k (lostJobs (n + 1)) =
        loop quiet (n + 1) (k + 1) (lostJobs n) := by
      rw [loop]
      simp [lostJobs, quiet, List.replicate_succ, handle, lostRecv]
    rw [hround, ih, Nat.add_right_comm, Nat.add_assoc]

theorem arrived_lostJobs (m n : ℕ) :
    arrived quiet (lostJobs m).jobs 0 n = List.replicate m lostRecv := by
  have hnone : (List.range' 0 n).flatMap quiet.arrivals = [] :=
    List.flatMap_eq_nil_iff.2 fun _ _ => rfl
  rw [arrived, hnone, List.append_nil]
  rfl

/-- **1001 `Recv` jobs of a session that is gone** are dequeued in one call. -/
theorem handleJob_starves :
    handleJob quiet 1002 (lostJobs 1001) = finish 1001 (lostJobs 0) ∧
      ¬∃ rounds, (handleJob quiet rounds (lostJobs 1001)).Bounded 0 := by
  have hloop := loop_lostJobs 1001 0
  rw [Nat.zero_add] at hloop
  refine ⟨hloop, fun hbounded => (loop_bounded_iff 999 rfl).1 hbounded ?_⟩
  have harrived (n : ℕ) : arrived quiet (lostJobs 1001).jobs 0 n =
      List.replicate 1001 lostRecv := arrived_lostJobs 1001 n
  refine ⟨fun n hn => ?_, fun n hn job hget htype => ?_, lostRecv, ?_, rfl, rfl⟩
  · rw [harrived, List.length_replicate]
    omega
  · rw [harrived] at hget
    obtain rfl := List.eq_of_mem_replicate (List.mem_of_getElem? hget)
    rcases htype with htype | htype
    · exact absurd htype (by decide)
    · exact absurd htype (by decide)
  · rw [harrived, List.getElem?_replicate, if_pos (by decide)]

end HandleJob

end NetLib
