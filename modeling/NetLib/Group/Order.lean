import Mathlib.Data.List.Nodup
import Mathlib.Data.List.Range
import NetLib.Group.Jobs
/-!
# Group jobs below the capacity of the queue

`_isRun` keeps `HandleJob` to one thread, so the window of the queue is kept as
long as no ticket is taken beyond its capacity. Then the jobs are handled in the
order of their tickets, and every thread has its tickets in the order of its
calls.
-/

namespace NetLib

namespace Group

open LockFreeFixedQueue

variable {Job : Type}

/-! ## The invariant -/

/-- The thread as the queue sees it. -/
def Pc.access : Pc Job → Access (Call Job)
  | .load _ c _ t => .load t c
  | .put _ c _ t => .put t c
  | .publish _ c _ t => .publish t c
  | .headLoad _ _ h => .headLoad h
  | .cas _ _ h => .cas h
  | .take _ _ h => .take h
  | .clear _ _ h c => .clear h c
  | _ => .outside

/-- How often the thread is inside `Update`. -/
def Home.depth : Home → ℕ
  | .outside => 0
  | .job _ home | .update home => home.depth + 1

def Pc.depth : Pc Job → ℕ
  | .code home | .retry home _ _ | .load home _ _ _ | .put home _ _ _ | .publish home _ _ _
  | .checkRun home | .exchangeRun home => home.depth
  | .sizeHead home | .sizeTail home _ | .orNeedUpdate home | .needUpdate home | .endRun home
  | .dequeue _ home | .headLoad _ home _ | .cas _ home _ | .take _ home _ | .clear _ home _ _ =>
    home.depth + 1
  | .debugBreak => 0

theorem Pc.drains_le (pc : Pc Job) : pc.access.drains ≤ pc.depth := by
  cases pc <;> simp [access, Access.drains, depth]

def Thread.depth (q : Thread Job) : ℕ := q.pc.depth

/-- The calls of a thread, with the one that is under way. -/
def Thread.calls (q : Thread Job) : List (Call Job) := q.mine ++ q.pc.call.toList

/-- Has no `Enqueue` of the thread been refused, and no exchange found what it
must not? -/
def Pc.Calm : Pc Job → Prop
  | .retry _ _ _ | .debugBreak => False
  | _ => True

/-- The queue and its threads as `Window` has them. -/
def World.onQueue (w : World Job) : Pool (Traced (Call Job) (2 ^ logJobs)) (Access (Call Job)) :=
  ⟨w.shared.toTraced, w.threads.map fun q => q.pc.access⟩

structure Inv (w : World Job) : Prop where
  window : Window 0 w.onQueue
  running : w.total Thread.depth = if w.shared.isRun then 1 else 0
  serials : w.shared.tickets.map Call.serial = List.range w.shared.calls
  handled : w.shared.handled = w.shared.tickets.take w.shared.handled.length
  taken : w.shared.taken = w.shared.handled.length + w.onQueue.total Access.takes
  /-- A thread has its tickets in the order of its calls. -/
  calls : ∀ q ∈ w.threads, q.calls.Sublist w.shared.tickets
  owned : ∀ c ∈ w.shared.tickets, ∃ q ∈ w.threads, c ∈ q.calls
  calm : ∀ q ∈ w.threads, q.pc.Calm

section Step

variable {w w' : World Job} {e : ℕ × Event Job} {q q' : Thread Job}

theorem onQueue_getElem? {i : ℕ} (hq : w.threads[i]? = some q) :
    w.onQueue.threads[i]? = some q.pc.access := by
  simp only [World.onQueue, List.getElem?_map, hq, Option.map_some]

theorem drains_le_depth : w.onQueue.total Access.drains ≤ w.total Thread.depth := by
  simp only [Pool.total, World.onQueue, List.map_map]
  exact List.sum_le_sum fun q _ => q.pc.drains_le

theorem Inv.drains_le (h : Inv w) : w.onQueue.total Access.drains ≤ 1 := by
  have hrunning := h.running
  have hle := drains_le_depth (w := w)
  split at hrunning <;> omega

theorem Inv.nodup (h : Inv w) : w.shared.tickets.Nodup :=
  (List.pairwise_map.1 (h.serials ▸ List.nodup_range)).imp fun hne heq => hne (congrArg _ heq)

/-- The steps that take no ticket. -/
theorem Inv.of_access (h : Inv w) (hq : w.threads[e.1]? = some q)
    (ht : w'.threads = w.threads.set e.1 q')
    (ha : AccessStep w.shared.toTraced q.pc.access w'.shared.toTraced q'.pc.access)
    (htickets : w'.shared.tickets = w.shared.tickets) (hcount : w'.shared.calls = w.shared.calls)
    (hcalls : q'.calls = q.calls)
    (hdepth : q'.depth + (if w.shared.isRun then 1 else 0) =
      q.depth + if w'.shared.isRun then 1 else 0)
    (hhandled : w'.shared.handled = w.shared.tickets.take w'.shared.handled.length)
    (htaken : w'.shared.taken + q.pc.access.takes + w.shared.handled.length =
      w.shared.taken + q'.pc.access.takes + w'.shared.handled.length)
    (hcalm : q'.pc.Calm) : Inv w' := by
  have hset : w'.onQueue.threads = w.onQueue.threads.set e.1 q'.pc.access := by
    simp only [World.onQueue, ht, List.map_set]
  have htakes := Pool.total_step (e := (e.1, ())) Access.takes (onQueue_getElem? hq) hset
  have hruns := Pool.total_step Thread.depth hq ht
  have hold := h.taken
  have hrunning := h.running
  have hmem := List.mem_of_getElem? hq
  refine {
    window := h.window.step (by decide) (onQueue_getElem? hq) hset ha h.drains_le
    running := by omega
    serials := by rw [htickets, hcount]; exact h.serials
    handled := by rw [htickets]; exact hhandled
    taken := by omega
    calls := ?_
    owned := fun c hc => ?_
    calm := Pool.forall_threads ht h.calm hcalm }
  · rw [htickets]
    exact Pool.forall_threads ht h.calls (hcalls ▸ h.calls q hmem)
  · rw [htickets] at hc
    rcases Pool.exists_threads hq ht (h.owned c hc) with hown | hother
    · exact ⟨q', Pool.mem_threads hq ht, hcalls ▸ hown⟩
    · exact hother

/-- `Enqueue` takes a ticket. -/
theorem Inv.ticket_step (h : Inv w) {home : Home} {job : Job} {update : Bool}
    {mine : List (Call Job)} (hq : w.threads[e.1]? = some ⟨.code home, mine⟩)
    (ht : w'.threads = w.threads.set e.1
      ⟨.load home ⟨w.shared.calls, job⟩ update w.shared.queue.tailIndex, mine⟩)
    (hs : w'.shared = { w.shared with
      queue := w.shared.queue.fetchAddTail.2,
      tickets := w.shared.tickets ++ [⟨w.shared.calls, job⟩], calls := w.shared.calls + 1 })
    (hroom : w.shared.queue.size < (2 ^ logJobs : ℕ)) : Inv w' := by
  have hmem := List.mem_of_getElem? hq
  have hset : w'.onQueue.threads = w.onQueue.threads.set e.1
      (.load w.shared.queue.tailIndex ⟨w.shared.calls, job⟩) := by
    simp only [World.onQueue, ht, List.map_set]
    rfl
  have hle : w.shared.taken ≤ w.shared.tickets.length := h.window.le
  have hlt : w.shared.tickets.length < w.shared.taken + 2 ^ logJobs := by
    have hsize := h.window.size_eq (show logJobs ≤ 30 by decide)
    change w.shared.queue.size = (w.shared.tickets.length : ℤ) - w.shared.taken at hsize
    omega
  have htakes := Pool.total_step (e := (e.1, ())) Access.takes (onQueue_getElem? hq) hset
  have hruns := Pool.total_step Thread.depth hq ht
  have hold := h.taken
  refine {
    window := h.window.step (by decide) (onQueue_getElem? hq) hset (by
      change AccessStep w.shared.toTraced .outside w'.shared.toTraced _
      rw [hs]
      exact .ticket _ hlt) h.drains_le
    running := by
      rw [hs]
      exact (Nat.add_right_cancel hruns).trans h.running
    serials := by
      rw [hs]
      change (w.shared.tickets ++ [_]).map Call.serial = List.range (w.shared.calls + 1)
      rw [List.map_append, h.serials, List.range_succ]
      rfl
    handled := ?_
    taken := by
      rw [hs]
      exact hold.trans (congrArg _ (Nat.add_right_cancel htakes).symm)
    calls := ?_
    owned := fun c hc => ?_
    calm := Pool.forall_threads ht h.calm trivial }
  · rw [hs]
    change w.shared.handled = (w.shared.tickets ++ [_]).take w.shared.handled.length
    rw [List.take_append_of_le_length (by omega)]
    exact h.handled
  · rw [hs]
    refine Pool.forall_threads ht
      (fun r hr => (h.calls r hr).trans (List.sublist_append_left _ _)) ?_
    have hmine := h.calls _ hmem
    simp only [Thread.calls, Pc.call, Option.toList_none, List.append_nil] at hmine
    exact hmine.append (List.Sublist.refl _)
  · rw [hs] at hc
    rcases List.mem_append.1 hc with hc | hc
    · rcases Pool.exists_threads hq ht (h.owned c hc) with hown | hother
      · refine ⟨_, Pool.mem_threads hq ht, ?_⟩
        simp only [Thread.calls, Pc.call, Option.toList_none, List.append_nil] at hown
        exact List.mem_append_left _ hown
      · exact hother
    · refine ⟨_, Pool.mem_threads hq ht, List.mem_append_right _ ?_⟩
      exact hc

/-- An `Enqueue` that has stored its job finds its cell free still. -/
theorem Inv.free_cell (h : Inv w) {home : Home} {call : Call Job} {update : Bool} {t : BitVec 32}
    (hq : q ∈ w.threads) (hpc : q.pc = .publish home call update t) :
    w.shared.queue.loadUsed t = false := by
  have hmem : Access.publish t call ∈ w.onQueue.threads := by
    have : q.pc.access ∈ w.onQueue.threads := List.mem_map_of_mem hq
    rwa [hpc] at this
  have hfills : 0 < (Access.publish t call).fills t := by simp [Access.fills]
  obtain ⟨n, hn, hn', rfl, -⟩ := h.window.knows _ hmem
  exact (h.window.produced hn hn' (hfills.trans_le (Pool.le_total _ hmem))).2.1

/-- The job taken last is the next to be handled. -/
theorem Inv.next_handled (h : Inv w) (hq : q ∈ w.threads) (htake : q.pc.access.takes = 1) :
    w.shared.taken = w.shared.handled.length + 1 := by
  have hge := Pool.le_total (w := w.onQueue) Access.takes
    (List.mem_map_of_mem hq : q.pc.access ∈ w.onQueue.threads)
  have hle : w.onQueue.total Access.takes ≤ w.onQueue.total Access.drains :=
    List.sum_le_sum fun a _ => a.takes_le
  have := h.drains_le
  have := h.taken
  omega

/-- **Every step keeps the jobs in order**, as long as the queue has room. -/
theorem Inv.step (h : Inv w) (hst : Group.step w e = some w') (hfits : Fits w e w') : Inv w' := by
  obtain ⟨q, q', hq, hnext, ht⟩ := Pool.step_eq_some hst
  have hmem := List.mem_of_getElem? hq
  obtain ⟨hroom, hlook⟩ := hfits
  have hknows := h.window.knows _ (List.mem_map_of_mem hmem : q.pc.access ∈ w.onQueue.threads)
  -- the steps that change no history
  have hquiet (s : Jobs Job) (hs : w'.shared = s) (htk : s.tickets = w.shared.tickets)
      (hn : s.calls = w.shared.calls) (hh : s.handled = w.shared.handled)
      (htaken : s.taken = w.shared.taken)
      (ha : AccessStep w.shared.toTraced q.pc.access s.toTraced q'.pc.access)
      (hcalls : q'.calls = q.calls)
      (hdepth : q'.depth + (if w.shared.isRun then 1 else 0) = q.depth + if s.isRun then 1 else 0)
      (htakes : q'.pc.access.takes = q.pc.access.takes) (hcalm : q'.pc.Calm) : Inv w' := by
    subst hs
    refine h.of_access hq ht ha htk hn hcalls hdepth ?_ ?_ hcalm
    · rw [hh]
      exact h.handled
    · rw [htaken, hh, htakes]
  obtain ⟨⟨s, pc', r⟩, haccess, heq⟩ := Option.map_eq_some_iff.1 hnext
  obtain ⟨pc, mine⟩ := q
  obtain ⟨hs, hq'⟩ : s = w'.shared ∧ ⟨pc', mine ++ r.toList⟩ = q' := Prod.mk.inj heq
  subst hq'
  clear heq hnext
  obtain ⟨i, e⟩ := e
  -- the steps that change nothing but the program point
  have hsame (hsame : s = w.shared) (hr : r = none)
      (ha : AccessStep w.shared.toTraced pc.access w.shared.toTraced pc'.access)
      (hcall : pc'.call = pc.call) (hdepth : pc'.depth = pc.depth)
      (htakes : pc'.access.takes = pc.access.takes) (hcalm : pc'.Calm) : Inv w' := by
    subst hsame hr
    refine hquiet _ hs.symm rfl rfl rfl rfl ha ?_ (congrArg (· + _) hdepth) htakes hcalm
    simp only [Thread.calls, hcall, Option.toList_none, List.append_nil]
  cases action_of_access haccess with
  | enqueue =>
    rw [Option.toList_none, List.append_nil] at ht
    refine h.ticket_step hq ht hs.symm (hroom.resolve_left ?_)
    rw [← hs, List.length_append, List.length_singleton]
    omega
  | run | limit | back | gone | updated | isRun | notRun | sizeHead | hasJob | noJob | orDue
  | notDue | onUpdate | noUpdate => exact hsame rfl rfl .quiet rfl rfl rfl trivial
  | retry => exact absurd (h.calm _ hmem) not_false
  | @refused _ _ _ t hused =>
    have hbind : w.threads[i]?.bind Thread.looksAt = some t := by rw [hq]; rfl
    simp [hbind, hused] at hlook
  | vacant hunused => exact hsame rfl rfl (.vacant hunused) rfl rfl rfl trivial
  | put =>
    exact hquiet _ hs.symm rfl rfl rfl rfl .stored (by simp [Thread.calls, Pc.call]) rfl rfl trivial
  | @publish home call update t _ =>
    have hcalls : (⟨if update then .checkRun home else .code home, mine ++ [call]⟩ :
        Thread Job).calls = (⟨.publish home call update t, mine⟩ : Thread Job).calls := by
      cases update <;> simp [Thread.calls, Pc.call]
    cases update with
    | true => exact hquiet _ hs.symm rfl rfl rfl rfl .published hcalls rfl rfl trivial
    | false => exact hquiet _ hs.symm rfl rfl rfl rfl .published hcalls rfl rfl trivial
  | published hused => exact absurd (h.free_cell hmem rfl) (ne_false_of_eq_true hused)
  | isRunning hrun =>
    exact hquiet _ hs.symm rfl rfl rfl rfl .quiet (by simp [Thread.calls, Pc.call])
      (by rw [hrun]; rfl) rfl trivial
  | startRun hrun =>
    exact hquiet _ hs.symm rfl rfl rfl rfl .quiet (by simp [Thread.calls, Pc.call])
      (by rw [hrun]; rfl) rfl trivial
  | endRun =>
    have hrun : w.shared.isRun = true := by
      by_contra hno
      have hrunning := h.running
      rw [if_neg hno] at hrunning
      exact absurd (Pool.eq_zero_of_total hrunning hmem) (Nat.succ_ne_zero _)
    exact hquiet _ hs.symm rfl rfl rfl rfl .quiet (by simp [Thread.calls, Pc.call])
      (by rw [hrun]; rfl) rfl trivial
  | dequeue => exact hsame rfl rfl .readHead rfl rfl rfl trivial
  | used hused => exact hsame rfl rfl (.used hused) rfl rfl rfl trivial
  | unused => exact hsame rfl rfl .unused rfl rfl rfl trivial
  | won hwon =>
    refine h.of_access hq ht (by rw [← hs]; exact .won hwon) (by rw [← hs]) (by rw [← hs])
      (by simp [Thread.calls, Pc.call]) (by rw [← hs]; rfl) (by rw [← hs]; exact h.handled)
      (by rw [← hs]; rfl) trivial
  | lost => exact hsame rfl rfl .lost rfl rfl rfl trivial
  | take => exact hsame rfl rfl .read rfl rfl rfl trivial
  | @cleared _ _ _ call _ =>
    obtain ⟨n, hn, rfl, -, hget⟩ := hknows
    -- the job taken last is the next to be handled
    have hlen : n = w.shared.handled.length := by
      have := h.next_handled hmem rfl
      change w.shared.taken = n + 1 at hn
      omega
    have hget' : w.shared.tickets[w.shared.handled.length]? = some call := hlen ▸ hget
    refine h.of_access hq ht (by rw [← hs]; exact .cleared) (by rw [← hs]) (by rw [← hs])
      (by simp [Thread.calls, Pc.call]) (by rw [← hs]; rfl) ?_ ?_ trivial
    · rw [← hs]
      change w.shared.handled ++ [call] =
        w.shared.tickets.take (w.shared.handled ++ [call]).length
      rw [List.length_append, List.length_singleton, List.take_add_one, ← h.handled, hget']
      rfl
    · rw [← hs]
      change w.shared.taken + 1 + w.shared.handled.length =
        w.shared.taken + 0 + (w.shared.handled ++ [call]).length
      rw [List.length_append, List.length_singleton]
      omega
  | clear hunused =>
    obtain ⟨n, -, rfl, hused, -⟩ := hknows
    exact absurd hunused (ne_false_of_eq_true hused)

theorem Inv.initial [Inhabited Job] (n : ℕ) : Inv (World.initial n : World Job) := by
  have hidle : ∀ q ∈ (World.initial n : World Job).threads, q = ⟨.code .outside, []⟩ :=
    fun q hq => (List.mem_replicate.1 hq).2
  have houtside : ∀ a ∈ (World.initial n : World Job).onQueue.threads, a = .outside := by
    intro a ha
    obtain ⟨q, hq, rfl⟩ := List.mem_map.1 ha
    rw [hidle q hq]
    rfl
  refine ⟨.start rfl rfl rfl rfl (fun _ => rfl) houtside, ?_, rfl, rfl, ?_, fun q hq => ?_, nofun,
    fun q hq => ?_⟩
  · exact Pool.total_of_forall_eq hidle rfl
  · rw [Pool.total_of_forall_eq houtside rfl]
    rfl
  · rw [hidle q hq]
    exact List.Sublist.refl _
  · rw [hidle q hq]
    trivial

/-- What is under way is not handled. -/
theorem Inv.not_handled (h : Inv w) {c : Call Job} (hq : q ∈ w.threads)
    (hcall : q.pc.call = some c) :
    c ∉ w.shared.handled := by
  have hknows := h.window.knows _ (List.mem_map_of_mem hq : q.pc.access ∈ w.onQueue.threads)
  have hcalm := h.calm q hq
  obtain ⟨n, hn, hget⟩ : ∃ n, w.shared.taken ≤ n ∧ w.shared.tickets[n]? = some c := by
    generalize hpc : q.pc = pc at hknows hcall hcalm
    cases pc with
    | load home c' update t =>
      obtain rfl := Option.some.inj hcall
      obtain ⟨n, hn, -, hget⟩ := hknows
      exact ⟨n, hn, hget⟩
    | put home c' update t =>
      obtain rfl := Option.some.inj hcall
      obtain ⟨n, hn, -, -, hget⟩ := hknows
      exact ⟨n, hn, hget⟩
    | publish home c' update t =>
      obtain rfl := Option.some.inj hcall
      obtain ⟨n, hn, -, -, hget, -⟩ := hknows
      exact ⟨n, hn, hget⟩
    | retry => exact absurd hcalm not_false
    | _ => cases hcall
  intro hmem
  rw [h.handled] at hmem
  obtain ⟨j, hj, hget'⟩ := List.mem_take_iff_getElem.1 hmem
  have htaken := h.taken
  obtain ⟨hlt, hget⟩ := List.getElem?_eq_some_iff.1 hget
  have := (List.Nodup.getElem_inj_iff h.nodup).1 (hget'.trans hget.symm)
  omega

/-- What the invariant says of the jobs. -/
theorem Inv.handles (h : Inv w) : Handles w where
  once := by
    rw [h.handled]
    exact h.nodup.sublist (List.take_sublist _ _)
  enqueued := by
    intro c hc
    have hticket : c ∈ w.shared.tickets := by
      rw [h.handled] at hc
      exact List.mem_of_mem_take hc
    obtain ⟨q, hq, hown⟩ := h.owned c hticket
    rcases List.mem_append.1 hown with hmine | hcall
    · exact ⟨q, hq, hmine⟩
    · exact absurd hc (h.not_handled hq (Option.mem_toList.1 hcall))
  order := by
    intro q hq
    have hmine : q.mine.Sublist w.shared.tickets :=
      (List.sublist_append_left _ _).trans (h.calls q hq)
    rw [← List.take_append_drop w.shared.handled.length w.shared.tickets] at hmine
    obtain ⟨l, l', heq, hl, hl'⟩ := List.sublist_append_iff.1 hmine
    refine ⟨l, l', heq, h.handled ▸ hl, fun c hc hhandled => ?_⟩
    have hnodup := h.nodup
    rw [← List.take_append_drop w.shared.handled.length w.shared.tickets] at hnodup
    exact (List.nodup_append.1 hnodup).2.2 c (h.handled ▸ hhandled) c (hl'.subset hc) rfl
  progress := by
    intro q hq jobs home t hpc hunused hquiet r hr c hc
    have hmem : Access.headLoad t ∈ w.onQueue.threads := by
      have : q.pc.access ∈ w.onQueue.threads := List.mem_map_of_mem hq
      rwa [hpc] at this
    -- nobody else is inside `Dequeue`
    have htakes : w.onQueue.total Access.takes = 0 := by
      have hadd := Pool.total_add_le (fun a => a.takes_le) hmem
      have := h.drains_le
      change _ + 1 ≤ _ + 0 at hadd
      omega
    have hhead : t = idx 0 w.shared.taken := (h.window.knows _ hmem).trans h.window.head
    have hpos : 0 < 2 ^ logJobs := Nat.two_pow_pos logJobs
    have hcell := h.window.cells w.shared.taken le_rfl (by
      rw [htakes]
      change w.shared.taken + 0 < w.shared.taken + 2 ^ logJobs
      omega)
    have hfills : w.onQueue.total (Access.fills (idx 0 w.shared.taken)) = 0 := by
      by_contra hne
      obtain ⟨a, ha, hpos⟩ := Pool.exists_of_total_pos (Nat.pos_of_ne_zero hne)
      obtain ⟨q', hq', rfl⟩ := List.mem_map.1 ha
      have hnone := hquiet q' hq'
      generalize q'.pc = pc at hnone hpos
      cases pc <;> first | exact absurd hpos (lt_irrefl 0) | cases hnone
    change _ + (if w.shared.queue.loadUsed (idx 0 w.shared.taken) then 1 else 0) =
      if w.shared.taken < w.shared.tickets.length then 1 else 0 at hcell
    rw [hfills, ← hhead, hunused, if_neg Bool.false_ne_true] at hcell
    have hall : w.shared.tickets.length ≤ w.shared.handled.length := by
      have := h.taken
      split at hcell <;> omega
    rw [h.handled, List.take_of_length_le hall]
    exact (h.calls r hr).subset (List.mem_append_left _ hc)

end Step

/-- **Group jobs are handled once and in order**, as long as the queue has room
for them. -/
theorem handles_of_fits [Inhabited Job] (n : ℕ) {w : World Job}
    (h : Runs step Fits (World.initial n) w) : Handles w :=
  (h.invariant (Inv.initial n) fun hinv hst hfits => hinv.step hst hfits).handles

/-- A thread enqueues a job and runs `Update`; while it handles the job, it
enqueues another one, and another thread a third. -/
def enqueueInHandler : List (ℕ × Event ℕ) :=
  (0, .enqueue 5 true) :: List.replicate 12 (0, .go) ++
    [(1, .enqueue 7 false), (0, .enqueue 6 true)] ++ List.replicate 3 (1, .go) ++
    List.replicate 17 (0, .go)

theorem handles_of_fits_nested : ∃ w : World ℕ,
    exec step (World.initial 2) enqueueInHandler = some w ∧ Handles w ∧
      w.shared.handled.map Call.job = [5, 7, 6] := by
  obtain ⟨w, hw, heq⟩ := Option.map_eq_some_iff.1
    (show (exec step (World.initial 2 : World ℕ) enqueueInHandler).map
      (fun w => w.shared.handled.map Call.job) = some [5, 7, 6] by rfl)
  exact ⟨w, hw, handles_of_fits 2 (runs_of_exec hw (by decide +kernel)), heq⟩

end Group

end NetLib
