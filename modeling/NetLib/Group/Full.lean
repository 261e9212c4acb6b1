import NetLib.Group.Jobs
import NetLib.Queue.Overrun
/-!
# A job behind a refused ticket

8192 jobs fill the queue. The next `Enqueue` is refused, and before it retries
`HandleJob` takes all of them. The retry has a ticket of its own, one past the
refused one: its job is in the queue, `hasJob` says so, and `HandleJob` looks at
the cell of the refused ticket and finds nothing.
-/

namespace NetLib

namespace Group

open LockFreeFixedQueue

variable {Job : Type} {s : Jobs Job} {home : Home} {mine : List (Call Job)}
  {q : LockFreeFixedQueue (Call Job) (2 ^ logJobs)}

/-! ## One thread alone -/

/-- `Enqueue` that finds its cell free. -/
theorem enqueue_solo {job : Job} (h : s.queue.enqueue ⟨s.calls, job⟩ = some (true, q)) :
    Pool.solo next s ⟨.code home, mine⟩ [.enqueue job false, .go, .go, .go] =
      some ({ s with queue := q, tickets := s.tickets ++ [⟨s.calls, job⟩], calls := s.calls + 1 },
        ⟨.code home, mine ++ [⟨s.calls, job⟩]⟩) := by
  simp only [LockFreeFixedQueue.enqueue] at h
  by_cases hu : s.queue.fetchAddTail.2.loadUsed s.queue.fetchAddTail.1 = true
  · rw [if_pos hu] at h
    cases h
  · rw [if_neg hu] at h
    split at h
    · cases h
    · rename_i hx
      obtain ⟨-, rfl⟩ := Prod.mk.inj (Option.some.inj h)
      simp [Pool.solo, next, access, hu, hx]

/-- `Enqueue` that finds its cell used is about to retry. -/
theorem refused_solo {job : Job} (h : s.queue.enqueue ⟨s.calls, job⟩ = some (false, q)) :
    Pool.solo next s ⟨.code home, mine⟩ [.enqueue job false, .go] =
      some ({ s with queue := q, tickets := s.tickets ++ [⟨s.calls, job⟩], calls := s.calls + 1 },
        ⟨.retry home ⟨s.calls, job⟩ false, mine⟩) := by
  simp only [LockFreeFixedQueue.enqueue] at h
  by_cases hu : s.queue.fetchAddTail.2.loadUsed s.queue.fetchAddTail.1 = true
  · rw [if_pos hu] at h
    obtain ⟨-, rfl⟩ := Prod.mk.inj (Option.some.inj h)
    simp [Pool.solo, next, access, hu]
  · rw [if_neg hu] at h
    split at h <;> cases h

/-- The retry finds its cell free. -/
theorem retry_solo {c : Call Job} (h : s.queue.enqueue c = some (true, q)) :
    Pool.solo next s ⟨.retry home c false, mine⟩ [.go, .go, .go, .go] =
      some ({ s with queue := q, tickets := s.tickets ++ [c] }, ⟨.code home, mine ++ [c]⟩) := by
  simp only [LockFreeFixedQueue.enqueue] at h
  by_cases hu : s.queue.fetchAddTail.2.loadUsed s.queue.fetchAddTail.1 = true
  · rw [if_pos hu] at h
    cases h
  · rw [if_neg hu] at h
    split at h
    · cases h
    · rename_i hx
      obtain ⟨-, rfl⟩ := Prod.mk.inj (Option.some.inj h)
      simp [Pool.solo, next, access, hu, hx]

/-- `Dequeue` of a job, up to the callback. -/
theorem dequeue_solo {n : ℕ} {c : Call Job} (h : s.queue.dequeue = some (some c, q)) :
    Pool.solo next s ⟨.dequeue n home, mine⟩ [.go, .go, .go, .go, .go] =
      some ({ s with queue := q, taken := s.taken + 1, handled := s.handled ++ [c] },
        ⟨.code (.job (n + 1) home), mine⟩) := by
  simp only [LockFreeFixedQueue.dequeue] at h
  by_cases hu : s.queue.loadUsed s.queue.headIndex = true
  · rw [if_pos hu] at h
    split at h
    · rename_i hx
      simp only [Option.some.injEq, Prod.mk.injEq] at h
      obtain ⟨rfl, rfl⟩ := h
      have hcas : (s.queue.casHead s.queue.headIndex).1 = true := by simp [casHead]
      simp [Pool.solo, next, access, hu, hcas, hx]
    · cases h
  · rw [if_neg hu] at h
    cases h

/-- From a callback on to the next `Dequeue`, which may be in a new `HandleJob`. -/
theorem callback_solo (n : ℕ) (hsize : 0 < s.queue.size) :
    ∃ es m, Pool.solo next s ⟨.code (.job n home), mine⟩ es =
      some (s, ⟨.dequeue m home, mine⟩) := by
  have hjobs : 0 < (s.queue.tailIndex - s.queue.headIndex).toInt := hsize
  by_cases hn : n = 1000
  · refine ⟨[.go, .due false, .go, .go], 0, ?_⟩
    simp only [Pool.solo, next, access, if_pos hn, if_pos hjobs, Option.map_some, Option.bind_some,
      Bool.false_eq_true, if_false, Option.toList_none, List.append_nil]
  · refine ⟨[.go], n, ?_⟩
    simp [Pool.solo, next, access, hn]

/-- **`HandleJob` takes what the queue stores.** -/
theorem drain_solo {items : List (Call Job)} {h n : ℕ} (hq : Overrun s.queue items h) :
    ∃ es q m h', Pool.solo next s ⟨.dequeue n home, mine⟩ es =
        some ({ s with queue := q, taken := s.taken + items.length, handled := s.handled ++ items },
          ⟨.dequeue m home, mine⟩) ∧ Overrun q [] h' := by
  induction items generalizing s h n with
  | nil => exact ⟨[], s.queue, n, h, by simp [Pool.solo], hq⟩
  | cons c items ih =>
    obtain ⟨q, hdeq, hq'⟩ := dequeue_overrun_cons (by decide) hq
    have hsize : 0 < q.size := by
      rw [size_of_overrun (by decide) hq']
      omega
    let t : Jobs Job := { s with queue := q, taken := s.taken + 1, handled := s.handled ++ [c] }
    obtain ⟨es, m, hback⟩ :
        ∃ es m, Pool.solo next t ⟨.code (.job (n + 1) home), mine⟩ es =
          some (t, ⟨.dequeue m home, mine⟩) := callback_solo (n + 1) hsize
    obtain ⟨es', q', m', h', hrest, hq''⟩ := ih (s := t) (n := m) hq'
    refine ⟨List.replicate 5 .go ++ (es ++ es'), q', m', h', ?_, hq''⟩
    have hall := Pool.solo_append (dequeue_solo hdeq) (Pool.solo_append hback hrest)
    change Pool.solo next s _ ([.go, .go, .go, .go, .go] ++ (es ++ es')) = _
    rw [hall, List.length_cons, List.append_assoc, List.singleton_append, Nat.add_assoc,
      Nat.add_comm 1]

/-- `Update` from outside, up to `HandleJob`. -/
theorem update_solo (hrun : s.isRun = false) (hsize : 0 < s.queue.size) :
    Pool.solo next s ⟨.code .outside, mine⟩ [.run, .go, .go, .go] =
      some ({ s with isRun := true }, ⟨.dequeue 0 .outside, mine⟩) := by
  have hjobs : 0 < (s.queue.tailIndex - s.queue.headIndex).toInt := hsize
  simp only [Pool.solo, next, access, hrun, if_pos hjobs, Option.map_some, Option.bind_some,
    Bool.false_eq_true, if_false, Option.toList_none, List.append_nil]

/-- `HandleJob` finds nothing, and `hasJob` calls it again. -/
theorem again_solo {n : ℕ} (hdeq : s.queue.dequeue = some (none, s.queue))
    (hsize : 0 < s.queue.size) :
    Pool.solo next s ⟨.dequeue n home, mine⟩ [.go, .go, .due false, .go, .go] =
      some (s, ⟨.dequeue 0 home, mine⟩) := by
  have hjobs : 0 < (s.queue.tailIndex - s.queue.headIndex).toInt := hsize
  have hunused : s.queue.loadUsed s.queue.headIndex = false := by
    by_contra hu
    simp only [LockFreeFixedQueue.dequeue, Bool.eq_true_of_not_eq_false hu, if_true] at hdeq
    split at hdeq <;> cases hdeq
  simp only [Pool.solo, next, access, hunused, if_pos hjobs, Option.map_some, Option.bind_some,
    Bool.false_eq_true, if_false, Option.toList_none, List.append_nil]

/-! ## The run -/

/-- **One thread fills the queue.** -/
theorem fill_exec {w : World Job} {i h : ℕ} {items : List (Call Job)} (job : Job) (n : ℕ)
    (hq : Holds w.shared.queue items h) (hlen : items.length + n ≤ 2 ^ logJobs)
    (hi : w.threads[i]? = some ⟨.code .outside, mine⟩) :
    ∃ es q tickets mine' new, exec Group.step w es = some ⟨{ w.shared with
        queue := q, tickets := tickets, calls := w.shared.calls + n },
        w.threads.set i ⟨.code .outside, mine'⟩⟩ ∧
      Holds q (items ++ new) h ∧ new.length = n ∧
      ∀ c ∈ new, c.serial < w.shared.calls + n := by
  induction n generalizing w items mine with
  | zero =>
    obtain ⟨hlt, hget⟩ := List.getElem?_eq_some_iff.1 hi
    refine ⟨[], w.shared.queue, w.shared.tickets, mine, [], ?_, by simpa using hq, rfl, nofun⟩
    rw [← hget, List.set_getElem_self hlt]
    rfl
  | succ n ih =>
    obtain ⟨q, henq, hq'⟩ := enqueue_of_room (by decide) hq (by omega) ⟨w.shared.calls, job⟩
    have hone := Pool.exec_of_solo hi (enqueue_solo henq)
    obtain ⟨hlt, -⟩ := List.getElem?_eq_some_iff.1 hi
    obtain ⟨es, q', tickets, mine', new, hrest, hq'', hlength, hserial⟩ :=
      ih (w := ⟨{ w.shared with
        queue := q, tickets := w.shared.tickets ++ [⟨w.shared.calls, job⟩],
        calls := w.shared.calls + 1 },
        w.threads.set i ⟨.code .outside, mine ++ [⟨w.shared.calls, job⟩]⟩⟩)
        hq' (by rw [List.length_append, List.length_singleton]; omega) (List.getElem?_set_self hlt)
    refine ⟨_ ++ es, q', tickets, mine', ⟨w.shared.calls, job⟩ :: new, exec_append hone ?_, ?_, ?_,
      fun c hc => ?_⟩
    · rw [hrest, List.set_set, Nat.add_assoc, Nat.add_comm 1]
    · rwa [List.append_assoc, List.singleton_append] at hq''
    · rw [List.length_cons, hlength]
    · rcases List.mem_cons.1 hc with rfl | hc
      · exact Nat.lt_add_of_pos_right (Nat.succ_pos n)
      · have := hserial c hc
        change _ < w.shared.calls + 1 + n at this
        omega

/-- **A job waits behind a refused ticket.** No `Enqueue` is in progress, and
`HandleJob` does not find the job that is in the queue. -/
theorem refused_ticket_hides_job : ∃ es, ∃ w : World ℕ,
    exec step (World.initial 2) es = some w ∧ ¬ Handles w := by
  obtain ⟨es₁, q₁, tickets₁, mine₁, new, hfill, hq₁, hlength, hserial⟩ :=
    fill_exec (w := (World.initial 2 : World ℕ)) (i := 1) (h := 0) 7 (2 ^ logJobs) holds_empty
      (by simp) rfl
  rw [List.nil_append] at hq₁
  rw [show (World.initial 2 : World ℕ).shared.calls = 0 from rfl, Nat.zero_add] at hserial
  let c : Call ℕ := ⟨0 + 2 ^ logJobs, 7⟩
  let rest : Thread ℕ := ⟨.code .outside, []⟩
  let s₁ : Jobs ℕ := { (World.initial 2 : World ℕ).shared with
    queue := q₁, tickets := tickets₁, calls := 0 + 2 ^ logJobs }
  obtain ⟨hrefused, hover⟩ := enqueue_full_overrun (by decide) hq₁ hlength c
  let s₂ : Jobs ℕ := { s₁ with
    queue := q₁.fetchAddTail.2, tickets := tickets₁ ++ [c], calls := 0 + 2 ^ logJobs + 1 }
  have hrefuse : exec step ⟨s₁, [rest, ⟨.code .outside, mine₁⟩]⟩ _ =
      some ⟨s₂, [rest, ⟨.retry .outside c false, mine₁⟩]⟩ :=
    Pool.exec_of_solo (i := 1) (w := ⟨s₁, _⟩) rfl (refused_solo hrefused)
  -- the other thread takes what is stored
  have hsize : 0 < s₂.queue.size := by
    rw [size_of_overrun (by decide) hover]
    omega
  obtain ⟨es₂, q₂, m, h, hdrain, hempty⟩ :
      ∃ es q m h, Pool.solo next { s₂ with isRun := true } ⟨.dequeue 0 .outside, []⟩ es =
        some (_, ⟨.dequeue m .outside, []⟩) ∧ Overrun q [] h := drain_solo hover
  obtain ⟨hnone, hone⟩ := dequeue_overrun_nil (by decide) hempty
  let s₃ : Jobs ℕ := { s₂ with
    isRun := true, queue := q₂, taken := s₂.taken + new.length, handled := s₂.handled ++ new }
  have htaken : exec step ⟨s₂, [rest, ⟨.retry .outside c false, mine₁⟩]⟩ _ =
      some ⟨s₃, [⟨.dequeue 0 .outside, []⟩, ⟨.retry .outside c false, mine₁⟩]⟩ :=
    Pool.exec_of_solo (i := 0) (w := ⟨s₂, _⟩) rfl (Pool.solo_append (update_solo rfl hsize)
      (Pool.solo_append hdrain (again_solo (s := s₃) hnone (by rw [hone]; exact Int.one_pos))))
  -- the retry
  obtain ⟨q₃, hretried, hhidden⟩ := enqueue_overrun_nil (by decide) (by decide) hempty c
  let s₄ : Jobs ℕ := { s₃ with queue := q₃, tickets := s₃.tickets ++ [c] }
  have hretry : exec step ⟨s₃, [⟨.dequeue 0 .outside, []⟩, ⟨.retry .outside c false, mine₁⟩]⟩ _ =
      some ⟨s₄, [⟨.dequeue 0 .outside, []⟩, ⟨.code .outside, mine₁ ++ [c]⟩]⟩ :=
    Pool.exec_of_solo (i := 1) (w := ⟨s₃, _⟩) rfl (retry_solo hretried)
  have hlook : exec step ⟨s₄, [⟨.dequeue 0 .outside, []⟩, ⟨.code .outside, mine₁ ++ [c]⟩]⟩
      [(0, .go)] = some ⟨s₄, [⟨.headLoad 0 .outside s₄.queue.headIndex, []⟩,
        ⟨.code .outside, mine₁ ++ [c]⟩]⟩ := rfl
  refine ⟨_, _, exec_append hfill (exec_append hrefuse (exec_append htaken
    (exec_append hretry hlook))), fun hhandles => ?_⟩
  have hmem : c ∈ new := hhandles.progress _ List.mem_cons_self 0 .outside _ rfl hhidden
    (fun r hr => ?_) ⟨.code .outside, mine₁ ++ [c]⟩ (List.mem_cons_of_mem _ List.mem_cons_self) c
    (List.mem_append_right _ List.mem_cons_self)
  · have := hserial _ hmem
    change 0 + 2 ^ logJobs < 2 ^ logJobs at this
    omega
  · rcases List.mem_cons.1 hr with rfl | hr
    · rfl
    · rw [List.mem_singleton.1 hr]
      rfl

end Group

end NetLib
