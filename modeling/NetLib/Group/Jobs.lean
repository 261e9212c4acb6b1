import NetLib.Queue.Concurrent
/-!
# The job queue of a group

`Group::Enqueue` retries until the queue takes the job, and may then run
`Update` itself; `_isRun` keeps it to one thread at a time. `HandleJob` calls
back for every job, and what it calls may enqueue more. Any number of threads,
one access at a time. Left out are what a callback does besides, and the
numbers `Update` and `HandleJob` keep for the monitor.
-/

namespace NetLib

namespace Group

open LockFreeFixedQueue

/-- A call of `Enqueue` and its job. That calls are numbered is history. -/
structure Call (Job : Type) where
  serial : ℕ
  job : Job
  deriving DecidableEq

instance {Job : Type} [Inhabited Job] : Inhabited (Call Job) := ⟨⟨0, default⟩⟩

/-- The number of cells is 2 to this. -/
abbrev logJobs : ℕ := 13

/-- `_jobs` and `_isRun`, with the tickets of the queue. -/
structure Jobs (Job : Type) extends Traced (Call Job) (2 ^ logJobs) where
  isRun : Bool
  /-- How often `Enqueue` was called. -/
  calls : ℕ
  /-- The jobs `HandleJob` got, in order. -/
  handled : List (Call Job)

/-- Whose code a thread runs when it runs none of the queue's: the one of a
caller from outside, or a callback of `HandleJob` or `Update`, which was called
from `home`. -/
inductive Home
  | outside
  /-- The callback for a job, the `jobs`-th of this `HandleJob`. -/
  | job (jobs : ℕ) (home : Home)
  /-- `OnUpdate` -/
  | update (home : Home)
  deriving DecidableEq

/-- Where a thread is inside `Enqueue`, `Update` or `HandleJob`. -/
inductive Pc (Job : Type)
  | code (home : Home)
  -- Enqueue
  | retry (home : Home) (call : Call Job) (update : Bool)
  | load (home : Home) (call : Call Job) (update : Bool) (tail : BitVec 32)
  | put (home : Home) (call : Call Job) (update : Bool) (tail : BitVec 32)
  | publish (home : Home) (call : Call Job) (update : Bool) (tail : BitVec 32)
  | checkRun (home : Home)
  -- Update
  | exchangeRun (home : Home)
  | sizeHead (home : Home)
  | sizeTail (home : Home) (head : BitVec 32)
  | orNeedUpdate (home : Home)
  | needUpdate (home : Home)
  | endRun (home : Home)
  -- HandleJob
  | dequeue (jobs : ℕ) (home : Home)
  | headLoad (jobs : ℕ) (home : Home) (head : BitVec 32)
  | cas (jobs : ℕ) (home : Home) (head : BitVec 32)
  | take (jobs : ℕ) (home : Home) (head : BitVec 32)
  | clear (jobs : ℕ) (home : Home) (head : BitVec 32) (call : Call Job)
  | debugBreak
  deriving DecidableEq

/-- A thread, with its calls that have put their job into the queue. -/
structure Thread (Job : Type) where
  pc : Pc Job
  mine : List (Call Job)

inductive Event (Job : Type)
  | go
  | enqueue (job : Job) (update : Bool)
  /-- `GroupExecutable::Execute` -/
  | run
  /-- What `NeedUpdate` answers. -/
  | due (b : Bool)
  /-- The session of a `Recv` job is gone: `continue`, which does not look at
  the number of jobs. -/
  | gone
  deriving DecidableEq

variable {Job : Type}

/-- The next access of a thread; the last component is the call whose job is now
in the queue. -/
def access (s : Jobs Job) : Pc Job → Event Job → Option (Jobs Job × Pc Job × Option (Call Job))
  | .code home, .enqueue job update =>
    let call := ⟨s.calls, job⟩
    some ({ s with queue := s.queue.fetchAddTail.2, tickets := s.tickets ++ [call],
                   calls := s.calls + 1 }, .load home call update s.queue.fetchAddTail.1, none)
  | .code .outside, .run => some (s, .exchangeRun .outside, none)
  | .code (.job jobs home), .go =>
    some (s, if jobs = 1000 then .needUpdate home else .dequeue jobs home, none)
  | .code (.job jobs home), .gone => some (s, .dequeue jobs home, none)
  | .code (.update home), .go => some (s, .sizeHead home, none)
  | .retry home call update, .go =>
    some ({ s with queue := s.queue.fetchAddTail.2, tickets := s.tickets ++ [call] },
      .load home call update s.queue.fetchAddTail.1, none)
  | .load home call update t, .go =>
    some (s, if s.queue.loadUsed t then .retry home call update else .put home call update t, none)
  | .put home call update t, .go =>
    some ({ s with queue := s.queue.putData t call }, .publish home call update t, none)
  | .publish home call update t, .go =>
    some ({ s with queue := (s.queue.exchangeUsed t true).2 },
      if (s.queue.exchangeUsed t true).1 then .debugBreak
      else if update then .checkRun home else .code home, some call)
  | .checkRun home, .go => some (s, if s.isRun then .code home else .exchangeRun home, none)
  | .exchangeRun home, .go =>
    some ({ s with isRun := true }, if s.isRun then .code home else .sizeHead home, none)
  | .sizeHead home, .go => some (s, .sizeTail home s.queue.headIndex, none)
  | .sizeTail home h, .go =>
    some (s, if 0 < (s.queue.tailIndex - h).toInt then .dequeue 0 home else .orNeedUpdate home,
      none)
  | .orNeedUpdate home, .due b => some (s, if b then .dequeue 0 home else .endRun home, none)
  | .needUpdate home, .due b => some (s, if b then .code (.update home) else .sizeHead home, none)
  | .endRun home, .go => some ({ s with isRun := false }, .code home, none)
  | .dequeue jobs home, .go => some (s, .headLoad jobs home s.queue.headIndex, none)
  | .headLoad jobs home h, .go =>
    some (s, if s.queue.loadUsed h then .cas jobs home h else .needUpdate home, none)
  | .cas jobs home h, .go =>
    if (s.queue.casHead h).1 then
      some ({ s with queue := (s.queue.casHead h).2, taken := s.taken + 1 },
        .take jobs home h, none)
    else some (s, .dequeue jobs home, none)
  | .take jobs home h, .go => some (s, .clear jobs home h (s.queue.getData h), none)
  | .clear jobs home h call, .go =>
    some ({ s with queue := (s.queue.exchangeUsed h false).2, handled := s.handled ++ [call] },
      if (s.queue.exchangeUsed h false).1 then .code (.job (jobs + 1) home) else .debugBreak, none)
  | _, _ => none

def next (s : Jobs Job) (q : Thread Job) (e : Event Job) : Option (Jobs Job × Thread Job) :=
  (access s q.pc e).map fun r => (r.1, ⟨r.2.1, q.mine ++ r.2.2.toList⟩)

abbrev World (Job : Type) := Pool (Jobs Job) (Thread Job)

abbrev step : World Job → ℕ × Event Job → Option (World Job) := Pool.step next

/-- A new group, and `n` threads. -/
def World.initial [Inhabited Job] (n : ℕ) : World Job where
  shared := ⟨⟨.empty _, [], 0⟩, false, 0, []⟩
  threads := List.replicate n ⟨.code .outside, []⟩

/-- The call a thread is about to put into the queue. -/
def Pc.call : Pc Job → Option (Call Job)
  | .retry _ c _ | .load _ c _ _ | .put _ c _ _ | .publish _ c _ _ => some c
  | _ => none

/-- Group jobs are handled once and in order. -/
structure Handles (w : World Job) : Prop where
  /-- No job is handled twice, -/
  once : w.shared.handled.Nodup
  /-- and none that no `Enqueue` has put into the queue. -/
  enqueued : ∀ c ∈ w.shared.handled, ∃ q ∈ w.threads, c ∈ q.mine
  /-- Of the jobs of one thread, those that were handled come first, in the
  order in which it enqueued them. -/
  order : ∀ q ∈ w.threads, ∃ l l', q.mine = l ++ l' ∧ l.Sublist w.shared.handled ∧
    ∀ c ∈ l', c ∉ w.shared.handled
  /-- With no `Enqueue` in progress, `HandleJob` finds a job as long as one is
  waiting. -/
  progress : ∀ q ∈ w.threads, ∀ jobs home h, q.pc = .headLoad jobs home h →
    w.shared.queue.loadUsed h = false → (∀ r ∈ w.threads, r.pc.call = none) →
    ∀ r ∈ w.threads, ∀ c ∈ r.mine, c ∈ w.shared.handled

/-- The ticket of an `Enqueue` that is about to look at its cell. -/
def Thread.looksAt (q : Thread Job) : Option (BitVec 32) :=
  match q.pc with
  | .load _ _ _ t => some t
  | _ => none

/-- No ticket is taken while the queue is full, and no `Enqueue` finds its cell
in use. -/
def Fits (w : World Job) (e : ℕ × Event Job) (w' : World Job) : Prop :=
  (w'.shared.tickets.length = w.shared.tickets.length ∨
    w.shared.queue.size < (2 ^ logJobs : ℕ)) ∧
  (w.threads[e.1]?.bind Thread.looksAt).all (fun t => !w.shared.queue.loadUsed t) = true

instance decidableFits (w : World Job) (e : ℕ × Event Job) (w' : World Job) :
    Decidable (Fits w e w') := inferInstanceAs (Decidable (_ ∧ _))

/-! ## What an access does -/

/-- The accesses of a thread, told apart by what they find. -/
inductive Action (s : Jobs Job) :
    Pc Job → Event Job → Jobs Job → Pc Job → Option (Call Job) → Prop
  | enqueue {home : Home} {job : Job} {update : Bool} :
    Action s (.code home) (.enqueue job update)
      { s with
        queue := s.queue.fetchAddTail.2, tickets := s.tickets ++ [⟨s.calls, job⟩],
        calls := s.calls + 1 }
      (.load home ⟨s.calls, job⟩ update s.queue.tailIndex) none
  | run : Action s (.code .outside) .run s (.exchangeRun .outside) none
  | limit {home : Home} : Action s (.code (.job 1000 home)) .go s (.needUpdate home) none
  | back {home : Home} {jobs : ℕ} : jobs ≠ 1000 →
    Action s (.code (.job jobs home)) .go s (.dequeue jobs home) none
  | gone {home : Home} {jobs : ℕ} :
    Action s (.code (.job jobs home)) .gone s (.dequeue jobs home) none
  | updated {home : Home} : Action s (.code (.update home)) .go s (.sizeHead home) none
  | retry {home : Home} {call : Call Job} {update : Bool} :
    Action s (.retry home call update) .go
      { s with queue := s.queue.fetchAddTail.2, tickets := s.tickets ++ [call] }
      (.load home call update s.queue.tailIndex) none
  | refused {home : Home} {call : Call Job} {update : Bool} {t : BitVec 32} :
    s.queue.loadUsed t = true →
    Action s (.load home call update t) .go s (.retry home call update) none
  | vacant {home : Home} {call : Call Job} {update : Bool} {t : BitVec 32} :
    s.queue.loadUsed t = false →
    Action s (.load home call update t) .go s (.put home call update t) none
  | put {home : Home} {call : Call Job} {update : Bool} {t : BitVec 32} :
    Action s (.put home call update t) .go { s with queue := s.queue.putData t call }
      (.publish home call update t) none
  | publish {home : Home} {call : Call Job} {update : Bool} {t : BitVec 32} :
    s.queue.loadUsed t = false →
    Action s (.publish home call update t) .go
      { s with queue := (s.queue.exchangeUsed t true).2 }
      (if update then .checkRun home else .code home) (some call)
  | published {home : Home} {call : Call Job} {update : Bool} {t : BitVec 32} :
    s.queue.loadUsed t = true →
    Action s (.publish home call update t) .go
      { s with queue := (s.queue.exchangeUsed t true).2 } .debugBreak (some call)
  | isRun {home : Home} : s.isRun = true → Action s (.checkRun home) .go s (.code home) none
  | notRun {home : Home} :
    s.isRun = false → Action s (.checkRun home) .go s (.exchangeRun home) none
  | isRunning {home : Home} : s.isRun = true →
    Action s (.exchangeRun home) .go { s with isRun := true } (.code home) none
  | startRun {home : Home} : s.isRun = false →
    Action s (.exchangeRun home) .go { s with isRun := true } (.sizeHead home) none
  | sizeHead {home : Home} :
    Action s (.sizeHead home) .go s (.sizeTail home s.queue.headIndex) none
  | hasJob {home : Home} {h : BitVec 32} :
    Action s (.sizeTail home h) .go s (.dequeue 0 home) none
  | noJob {home : Home} {h : BitVec 32} :
    Action s (.sizeTail home h) .go s (.orNeedUpdate home) none
  | orDue {home : Home} : Action s (.orNeedUpdate home) (.due true) s (.dequeue 0 home) none
  | notDue {home : Home} : Action s (.orNeedUpdate home) (.due false) s (.endRun home) none
  | onUpdate {home : Home} : Action s (.needUpdate home) (.due true) s (.code (.update home)) none
  | noUpdate {home : Home} : Action s (.needUpdate home) (.due false) s (.sizeHead home) none
  | endRun {home : Home} :
    Action s (.endRun home) .go { s with isRun := false } (.code home) none
  | dequeue {home : Home} {jobs : ℕ} :
    Action s (.dequeue jobs home) .go s (.headLoad jobs home s.queue.headIndex) none
  | used {home : Home} {jobs : ℕ} {h : BitVec 32} : s.queue.loadUsed h = true →
    Action s (.headLoad jobs home h) .go s (.cas jobs home h) none
  | unused {home : Home} {jobs : ℕ} {h : BitVec 32} : s.queue.loadUsed h = false →
    Action s (.headLoad jobs home h) .go s (.needUpdate home) none
  | won {home : Home} {jobs : ℕ} {h : BitVec 32} : (s.queue.casHead h).1 = true →
    Action s (.cas jobs home h) .go
      { s with queue := (s.queue.casHead h).2, taken := s.taken + 1 } (.take jobs home h) none
  | lost {home : Home} {jobs : ℕ} {h : BitVec 32} : (s.queue.casHead h).1 = false →
    Action s (.cas jobs home h) .go s (.dequeue jobs home) none
  | take {home : Home} {jobs : ℕ} {h : BitVec 32} :
    Action s (.take jobs home h) .go s (.clear jobs home h (s.queue.getData h)) none
  | cleared {home : Home} {jobs : ℕ} {h : BitVec 32} {call : Call Job} :
    s.queue.loadUsed h = true →
    Action s (.clear jobs home h call) .go
      { s with queue := (s.queue.exchangeUsed h false).2, handled := s.handled ++ [call] }
      (.code (.job (jobs + 1) home)) none
  | clear {home : Home} {jobs : ℕ} {h : BitVec 32} {call : Call Job} :
    s.queue.loadUsed h = false →
    Action s (.clear jobs home h call) .go
      { s with queue := (s.queue.exchangeUsed h false).2, handled := s.handled ++ [call] }
      .debugBreak none

variable {s s' : Jobs Job} {pc pc' : Pc Job} {e : Event Job} {c : Option (Call Job)}

/-- **Every access is one of these.** -/
theorem action_of_access (h : access s pc e = some (s', pc', c)) : Action s pc e s' pc' c := by
  unfold access at h
  split at h
  case h_19 home jobs t =>
    split at h <;> obtain ⟨rfl, rfl, rfl⟩ : _ ∧ _ ∧ _ := by
      simpa only [Option.some.injEq, Prod.mk.injEq] using h
    · exact .won (by assumption)
    · exact .lost (Bool.eq_false_of_not_eq_true (by assumption))
  case h_22 => cases h
  all_goals
    obtain ⟨rfl, rfl, rfl⟩ : _ ∧ _ ∧ _ := by simpa only [Option.some.injEq, Prod.mk.injEq] using h
  case h_3 home jobs =>
    split
    · rename_i hjobs
      subst hjobs
      exact .limit
    · exact .back (by assumption)
  case h_7 home call update t =>
    cases hu : s.queue.loadUsed t with
    | true => exact .refused hu
    | false => exact .vacant hu
  case h_9 home call update t =>
    cases hu : s.queue.loadUsed t with
    | true =>
      rw [if_pos (show (s.queue.exchangeUsed t true).1 = true from hu)]
      exact .published hu
    | false =>
      rw [if_neg (show ¬(s.queue.exchangeUsed t true).1 = true from ne_true_of_eq_false hu)]
      exact .publish hu
  case h_10 home =>
    cases hr : s.isRun with
    | true => exact .isRun hr
    | false => exact .notRun hr
  case h_11 home =>
    cases hr : s.isRun with
    | true => exact .isRunning hr
    | false => exact .startRun hr
  case h_13 home t =>
    split
    · exact .hasJob
    · exact .noJob
  case h_14 home b =>
    cases b with
    | true => exact .orDue
    | false => exact .notDue
  case h_15 home b =>
    cases b with
    | true => exact .onUpdate
    | false => exact .noUpdate
  case h_18 home jobs t =>
    cases hu : s.queue.loadUsed t with
    | true => exact .used hu
    | false => exact .unused hu
  case h_21 home jobs t call =>
    cases hu : s.queue.loadUsed t with
    | true =>
      rw [if_pos (show (s.queue.exchangeUsed t false).1 = true from hu)]
      exact .cleared hu
    | false =>
      rw [if_neg (show ¬(s.queue.exchangeUsed t false).1 = true from ne_true_of_eq_false hu)]
      exact .clear hu
  all_goals constructor

end Group

end NetLib
