import NetLib.Queue.Concurrent
/-!
# `LockFreeFixedQueue` below its capacity

Any number of producers and one consumer, one access at a time. The indices
are 32 bits and wrap. As long as a ticket never makes the difference of the
indices reach the number of cells, the queue is what its name says: every
`Enqueue` is accepted, and the consumer gets the elements in the order of
their tickets. And calls return: a thread inside one needs only steps of its
own, and what is published at the head is there for the next `Dequeue`.
-/

namespace NetLib

namespace LockFreeFixedQueue

namespace Mpsc

variable {T : Type} {k : ℕ}

/-- The queue, and what has been seen of it. -/
structure Log (T : Type) (N : ℕ) extends Traced T N where
  /-- The elements of the `Enqueue` calls that returned `false`. -/
  refused : List T
  /-- What `Dequeue` handed out. -/
  received : List T
  /-- What `Size` answered. -/
  sizes : List ℤ

/-- The program points of the producers and of the consumer. -/
inductive Pc (T : Type)
  -- Enqueue, from the ticket on
  | producer
  | load (tail : BitVec 32) (data : T)
  | put (tail : BitVec 32) (data : T)
  | publish (tail : BitVec 32) (data : T)
  -- Dequeue
  | consumer
  | dequeue
  | headLoad (head : BitVec 32)
  | cas (head : BitVec 32)
  | take (head : BitVec 32)
  | clear (head : BitVec 32) (data : T)
  -- Size, between the two loads
  | sizeTail (head : BitVec 32)
  | debugBreak
  deriving DecidableEq

inductive Event (T : Type)
  | go
  | enqueue (data : T)
  | dequeue
  | size
  deriving DecidableEq

/-- The next access of a thread. -/
def next (s : Log T (2 ^ k)) : Pc T → Event T → Option (Log T (2 ^ k) × Pc T)
  | .producer, .enqueue x =>
    some ({ s with queue := s.queue.fetchAddTail.2, tickets := s.tickets ++ [x] },
      .load s.queue.fetchAddTail.1 x)
  | .load t x, _ =>
    if s.queue.loadUsed t then some ({ s with refused := s.refused ++ [x] }, .producer)
    else some (s, .put t x)
  | .put t x, _ => some ({ s with queue := s.queue.putData t x }, .publish t x)
  | .publish t _, _ =>
    some ({ s with queue := (s.queue.exchangeUsed t true).2 },
      if (s.queue.exchangeUsed t true).1 then .debugBreak else .producer)
  | .consumer, .dequeue => some (s, .dequeue)
  | .consumer, .size => some (s, .sizeTail s.queue.headIndex)
  | .dequeue, _ => some (s, .headLoad s.queue.headIndex)
  | .headLoad h, _ => some (s, if s.queue.loadUsed h then .cas h else .consumer)
  | .cas h, _ =>
    if (s.queue.casHead h).1 then
      some ({ s with queue := (s.queue.casHead h).2, taken := s.taken + 1 }, .take h)
    else some (s, .dequeue)
  | .take h, _ => some (s, .clear h (s.queue.getData h))
  | .clear h x, _ =>
    some ({ s with queue := (s.queue.exchangeUsed h false).2, received := s.received ++ [x] },
      if (s.queue.exchangeUsed h false).1 then .consumer else .debugBreak)
  | .sizeTail h, _ =>
    some ({ s with sizes := s.sizes ++ [(s.queue.tailIndex - h).toInt] }, .consumer)
  | _, _ => none

abbrev World (T : Type) (k : ℕ) := Pool (Log T (2 ^ k)) (Pc T)

abbrev step : World T k → ℕ × Event T → Option (World T k) := Pool.step next

/-- The queue as constructed, one consumer and `n` producers. -/
def World.initial [Inhabited T] (n : ℕ) : World T k where
  shared := ⟨⟨.empty (2 ^ k), [], 0⟩, [], [], []⟩
  threads := .consumer :: List.replicate n .producer

/-- Right after a ticket is taken, `tailIndex - headIndex` is at most
`BufferSize - 1`. -/
def Below (w : World T k) (_ : ℕ × Event T) (w' : World T k) : Prop :=
  w'.shared.tickets.length = w.shared.tickets.length ∨ w'.shared.queue.size ≤ (2 ^ k : ℕ) - 1

instance decidableBelow (w : World T k) (e : ℕ × Event T) (w' : World T k) :
    Decidable (Below w e w') := inferInstanceAs (Decidable (_ ∨ _))

/-- The thread as the queue sees it. -/
def Pc.access : Pc T → Access T
  | .load t x => .load t x
  | .put t x => .put t x
  | .publish t x => .publish t x
  | .headLoad h => .headLoad h
  | .cas h => .cas h
  | .take h => .take h
  | .clear h x => .clear h x
  | .producer | .consumer | .dequeue | .sizeTail _ | .debugBreak => .outside

/-- Is the thread the consumer? -/
def Pc.consumes : Pc T → ℕ
  | .consumer | .dequeue | .headLoad _ | .cas _ | .take _ | .clear _ _ | .sizeTail _ => 1
  | _ => 0

/-- How many steps a call under way still takes at most. -/
def Pc.rank : Pc T → ℕ
  | .dequeue => 5
  | .headLoad _ => 4
  | .load _ _ | .cas _ => 3
  | .put _ _ | .take _ => 2
  | .publish _ _ | .clear _ _ | .sizeTail _ => 1
  | .producer | .consumer | .debugBreak => 0

/-- `Enqueue(data)`, run on alone. -/
def enqueueEvents (i : ℕ) (data : T) : List (ℕ × Event T) :=
  (i, .enqueue data) :: List.replicate 3 (i, .go)

/-- `Dequeue`, run on alone. -/
def dequeueEvents (i : ℕ) : List (ℕ × Event T) := (i, .dequeue) :: List.replicate 5 (i, .go)

/-- The queue does what it is for. -/
structure Correct (w : World T k) : Prop where
  accepted : w.shared.refused = []
  noBreak : Pc.debugBreak ∉ w.threads
  /-- What was received is what was enqueued first, in the order of tickets. -/
  received : w.shared.received <+: w.shared.tickets
  /-- And nothing is left behind: with no call under way, `Dequeue` finds an
  element as long as there is one. -/
  all : (∀ q ∈ w.threads, q = .producer ∨ q = .consumer) →
    (w.shared.queue.loadUsed w.shared.queue.headIndex = true ↔
      w.shared.received.length < w.shared.tickets.length)
  /-- Between two `Dequeue` calls the cell at the head is published as soon as
  its ticket is taken and the producer of that ticket has returned, wherever
  the other producers are. -/
  published : (∀ q ∈ w.threads, q.access.takes = 0) →
    (w.shared.queue.loadUsed w.shared.queue.headIndex = true ↔
      w.shared.received.length < w.shared.tickets.length ∧
        ∀ q ∈ w.threads, q.access.fills w.shared.queue.headIndex = 0)
  /-- A call under way is never stuck: whatever the others did, the thread's
  own next step is there and brings it closer to its return. -/
  returns : ∀ i pc c, w.threads[i]? = some pc → 0 < pc.rank → ∃ w' pc',
    step w (i, c) = some w' ∧ w'.threads = w.threads.set i pc' ∧ pc'.rank < pc.rank ∧
      pc'.consumes = pc.consumes
  /-- `Enqueue` returns `true`, and its element has the next ticket. -/
  enqueues : ∀ i x, w.threads[i]? = some .producer → w.shared.queue.size < (2 ^ k : ℕ) - 1 →
    ∃ w', exec step w (enqueueEvents i x) = some w' ∧ w'.threads = w.threads ∧
      w'.shared.tickets = w.shared.tickets ++ [x] ∧ w'.shared.refused = [] ∧
      w'.shared.received = w.shared.received
  /-- `Dequeue` obtains the next element, once the head is published. -/
  dequeues : ∀ i, w.threads[i]? = some .consumer →
    w.shared.queue.loadUsed w.shared.queue.headIndex = true →
    ∃ w' x, exec step w (dequeueEvents i) = some w' ∧ w'.threads = w.threads ∧
      w.shared.tickets[w.shared.received.length]? = some x ∧
      w'.shared.received = w.shared.received ++ [x] ∧ w'.shared.tickets = w.shared.tickets
  /-- The cell about to be read holds the next element, and no producer is
  about to write to it. -/
  read : ∀ h, Pc.take h ∈ w.threads →
    w.shared.queue.loadUsed h = true ∧
    w.shared.tickets[w.shared.received.length]? = some (w.shared.queue.getData h) ∧
    ∀ t x, Pc.put t x ∈ w.threads → cell (2 ^ k) t ≠ cell (2 ^ k) h
  /-- A cell about to be written holds nothing that is still to be read. -/
  write : ∀ t x, Pc.put t x ∈ w.threads → w.shared.queue.loadUsed t = false
  sizes : ∀ n ∈ w.shared.sizes, 0 ≤ n ∧ n ≤ ((2 ^ k : ℕ) : ℤ) - 1

/-! ## The invariant -/

/-- The queue and its threads as `Window` has them. -/
def World.onQueue (w : World T k) : Pool (Traced T (2 ^ k)) (Access T) :=
  ⟨w.shared.toTraced, w.threads.map Pc.access⟩

theorem Pc.drains_le (pc : Pc T) : pc.access.drains ≤ pc.consumes := by
  cases pc <;> simp [access, Access.drains, consumes]

/-- What a thread at `Size` goes by. -/
def Pc.Reads (s : Log T (2 ^ k)) : Pc T → Prop
  | .sizeTail h => h = s.queue.headIndex
  | _ => True

/-- The window is kept, one cell is left free, and what the consumer has is
next to what it has received. -/
structure Fifo (w : World T k) : Prop where
  window : Window 0 w.onQueue
  one : w.total Pc.consumes ≤ 1
  free : w.shared.tickets.length < w.shared.taken + 2 ^ k
  received : w.shared.received = w.shared.tickets.take w.shared.received.length
  taken : w.shared.taken = w.shared.received.length + w.onQueue.total Access.takes
  accepted : w.shared.refused = []
  noBreak : Pc.debugBreak ∉ w.threads
  reads : ∀ q ∈ w.threads, q.Reads w.shared
  sizes : ∀ n ∈ w.shared.sizes, 0 ≤ n ∧ n ≤ ((2 ^ k : ℕ) : ℤ) - 1

section Step

variable {w w' : World T k} {e : ℕ × Event T} {pc pc' : Pc T}

theorem onQueue_getElem? {i : ℕ} (hpc : w.threads[i]? = some pc) :
    w.onQueue.threads[i]? = some pc.access := by
  simp only [World.onQueue, List.getElem?_map, hpc, Option.map_some]

theorem Fifo.initial [Inhabited T] (n : ℕ) : Fifo (World.initial n : World T k) := by
  have houtside : ∀ a ∈ (World.initial n : World T k).onQueue.threads, a = .outside := by
    intro a ha
    obtain ⟨q, hq, rfl⟩ := List.mem_map.1 ha
    rcases List.mem_cons.1 hq with rfl | hq
    · rfl
    · rw [(List.mem_replicate.1 hq).2]
      rfl
  refine ⟨.start rfl rfl rfl rfl (fun _ => rfl) houtside, ?_, by simp [World.initial], rfl, ?_, rfl,
    ?_, fun q hq => ?_, nofun⟩
  · simp [Pool.total, World.initial, Pc.consumes]
  · rw [Pool.total_of_forall_eq houtside rfl]
    rfl
  · simp [World.initial]
  · rcases List.mem_cons.1 hq with rfl | hq
    · trivial
    · rw [(List.mem_replicate.1 hq).2]
      trivial

/-- Only the consumer dequeues. -/
theorem Fifo.drains_le_one (h : Fifo w) : w.onQueue.total Access.drains ≤ 1 := by
  refine le_trans ?_ h.one
  simp only [Pool.total, World.onQueue, List.map_map]
  exact List.sum_le_sum fun q _ => q.drains_le

/-- What a step has to show for itself. -/
theorem Fifo.of_access (hk : k ≤ 30) (h : Fifo w) (hpc : w.threads[e.1]? = some pc)
    (ht : w'.threads = w.threads.set e.1 pc')
    (ha : AccessStep w.shared.toTraced pc.access w'.shared.toTraced pc'.access)
    (hcons : pc'.consumes = pc.consumes)
    (hfree : w'.shared.tickets.length < w'.shared.taken + 2 ^ k)
    (hreceived : w'.shared.received = w'.shared.tickets.take w'.shared.received.length)
    (htaken : w'.shared.taken + pc.access.takes + w.shared.received.length =
      w.shared.taken + pc'.access.takes + w'.shared.received.length)
    (haccepted : w'.shared.refused = w.shared.refused) (hbreak : pc' ≠ .debugBreak)
    (hreads : pc'.Reads w'.shared)
    (hhead : w'.shared.queue.headIndex = w.shared.queue.headIndex ∨ pc.consumes = 1)
    (hsizes : ∀ n ∈ w'.shared.sizes, 0 ≤ n ∧ n ≤ ((2 ^ k : ℕ) : ℤ) - 1) : Fifo w' := by
  have hmem := List.mem_of_getElem? hpc
  have hset : w'.onQueue.threads = w.onQueue.threads.set e.1 pc'.access := by
    simp only [World.onQueue, ht, List.map_set]
  have hdrains := h.drains_le_one
  have htakes := Pool.total_step (e := (e.1, ())) Access.takes (onQueue_getElem? hpc) hset
  have hconsumes := Pool.total_step Pc.consumes hpc ht
  have hold := h.taken
  have hone := h.one
  refine ⟨h.window.step hk (onQueue_getElem? hpc) hset ha hdrains, by omega, hfree, hreceived,
    by omega, haccepted.trans h.accepted, fun hb => ?_, ?_, hsizes⟩
  · exact Pool.forall_threads (P := (· ≠ .debugBreak)) ht
      (fun q hq heq => h.noBreak (heq ▸ hq)) hbreak _ hb rfl
  · refine Pool.forall_threads_of_others ht (fun j q hj hq => ?_) hreads
    have hq' := h.reads q (List.mem_of_getElem? hq)
    rcases hhead with hsame | hconsumer
    · cases q with
      | sizeTail t => exact hq'.trans hsame.symm
      | _ => trivial
    · have hzero := Pool.eq_zero_of_other (f := Pc.consumes) (by omega) hj hpc hq
      cases q with
      | sizeTail t => cases hzero
      | _ => trivial

/-- A producer's ticket finds its cell free, and no other producer has it. -/
theorem Fifo.free_cell (h : Fifo w) {t : BitVec 32} {x : T} (hpc : pc ∈ w.threads)
    (hacc : pc.access = .load t x ∨ pc.access = .put t x ∨ pc.access = .publish t x) :
    w.shared.queue.loadUsed t = false := by
  have hmem : pc.access ∈ w.onQueue.threads := List.mem_map_of_mem hpc
  have hfills : 0 < pc.access.fills t := by
    rcases hacc with heq | heq | heq <;> rw [heq] <;> simp [Access.fills]
  obtain ⟨n, y, hn, rfl, hget⟩ := (h.window.knows _ hmem).ticket hfills
  obtain ⟨hlt, -⟩ := List.getElem?_eq_some_iff.1 hget
  have htakes : w.onQueue.total Access.takes ≤ 1 :=
    (List.sum_le_sum fun q _ => q.takes_le).trans h.drains_le_one
  have hfree := h.free
  have hlt' : n < w.shared.tickets.length := hlt
  exact (h.window.produced hn (by change n + _ < w.shared.taken + 2 ^ k; omega)
    (hfills.trans_le (Pool.le_total _ hmem))).2.1

/-- The element taken last is the next to be received. -/
theorem Fifo.next_received (h : Fifo w) (hpc : pc ∈ w.threads) (htake : pc.access.takes = 1) :
    w.shared.taken = w.shared.received.length + 1 := by
  have hge := Pool.le_total (w := w.onQueue) Access.takes
    (List.mem_map_of_mem hpc : pc.access ∈ w.onQueue.threads)
  have hle : w.onQueue.total Access.takes ≤ w.onQueue.total Access.drains :=
    List.sum_le_sum fun a _ => a.takes_le
  have := h.drains_le_one
  have := h.taken
  omega

/-- A ticket below the capacity leaves a cell free. -/
theorem Fifo.room_of_below (hk : k ≤ 30) (h : Fifo w) {x : T}
    (hs : w'.shared = { w.shared with
      queue := w.shared.queue.fetchAddTail.2, tickets := w.shared.tickets ++ [x] })
    (hbelow : Below w e w') : w.shared.tickets.length + 1 < w.shared.taken + 2 ^ k := by
  have hle : w.shared.taken ≤ w.shared.tickets.length := h.window.le
  have hfree := h.free
  rcases hbelow with heq | hle'
  · rw [hs] at heq
    simp only [List.length_append, List.length_singleton] at heq
    omega
  · have htail : w.shared.queue.tailIndex + 1 = idx 0 (w.shared.tickets.length + 1) := by
      have htail : w.shared.queue.tailIndex = idx 0 w.shared.tickets.length := h.window.tail
      rw [htail, idx, idx, ofNat_add_one, Nat.add_assoc]
    rw [hs] at hle'
    change ((w.shared.queue.tailIndex + 1) - w.shared.queue.headIndex).toInt ≤ _ at hle'
    rw [htail] at hle'
    have hsize := h.window.toInt_sub_head hk (n := w.shared.tickets.length + 1)
      (Nat.le_succ_of_le hle) hfree
    have hlast := hsize.symm.trans_le hle'
    change ((w.shared.tickets.length + 1 : ℕ) : ℤ) - w.shared.taken ≤ _ at hlast
    omega

/-- `Enqueue` takes a ticket, and one cell stays free. -/
theorem Fifo.ticket_step (hk : k ≤ 30) (h : Fifo w) {x : T}
    (hpc : w.threads[e.1]? = some .producer)
    (ht : w'.threads = w.threads.set e.1 (.load w.shared.queue.tailIndex x))
    (hs : w'.shared = { w.shared with
      queue := w.shared.queue.fetchAddTail.2, tickets := w.shared.tickets ++ [x] })
    (hroom : w.shared.tickets.length + 1 < w.shared.taken + 2 ^ k) : Fifo w' := by
  have hle : w.shared.taken ≤ w.shared.tickets.length := h.window.le
  have hlen : w.shared.received.length ≤ w.shared.tickets.length := by
    have := h.taken
    omega
  refine h.of_access hk hpc ht (by rw [hs]; exact .ticket x (by omega)) rfl ?_ ?_ ?_
    (by rw [hs]) (by simp) trivial (.inl (by rw [hs]; rfl)) (by rw [hs]; exact h.sizes)
  · rw [hs]
    simpa using hroom
  · rw [hs]
    change w.shared.received = (w.shared.tickets ++ [x]).take w.shared.received.length
    rw [List.take_append_of_le_length hlen]
    exact h.received
  · rw [hs]
    rfl

/-- The consumer clears its cell and returns the element. -/
theorem Fifo.clear_step (hk : k ≤ 30) (h : Fifo w) {x : T} {n : ℕ}
    (hpc : w.threads[e.1]? = some (.clear (idx 0 n) x))
    (ht : w'.threads = w.threads.set e.1 .consumer)
    (hs : w'.shared = { w.shared with
      queue := (w.shared.queue.exchangeUsed (idx 0 n) false).2
      received := w.shared.received ++ [x] })
    (hn : w.shared.taken = n + 1) (hget : w.shared.tickets[n]? = some x) : Fifo w' := by
  have hlen : n = w.shared.received.length := by
    have := h.next_received (List.mem_of_getElem? hpc) rfl
    omega
  refine h.of_access hk hpc ht (by rw [hs]; exact .cleared) rfl (by rw [hs]; exact h.free) ?_ ?_
    (by rw [hs]) (by simp) trivial (.inl (by rw [hs]; rfl)) (by rw [hs]; exact h.sizes)
  · rw [hs]
    change w.shared.received ++ [x] = w.shared.tickets.take (w.shared.received ++ [x]).length
    have hget' : w.shared.tickets[w.shared.received.length]? = some x := hlen ▸ hget
    rw [List.length_append, List.length_singleton, List.take_add_one, ← h.received, hget']
    rfl
  · rw [hs]
    change w.shared.taken + 1 + w.shared.received.length =
      w.shared.taken + 0 + (w.shared.received ++ [x]).length
    rw [List.length_append, List.length_singleton]
    omega

/-- The second load of `Size`, with the head of the first. -/
theorem Fifo.size_step (hk : k ≤ 30) (h : Fifo w)
    (hpc : w.threads[e.1]? = some (.sizeTail w.shared.queue.headIndex))
    (ht : w'.threads = w.threads.set e.1 .consumer)
    (hs : w'.shared = { w.shared with sizes := w.shared.sizes ++ [w.shared.queue.size] }) :
    Fifo w' := by
  have hle : w.shared.taken ≤ w.shared.tickets.length := h.window.le
  have hfree := h.free
  have hsize := h.window.size_eq hk
  change w.shared.queue.size = (w.shared.tickets.length : ℤ) - w.shared.taken at hsize
  refine h.of_access hk hpc ht (by rw [hs]; exact .quiet) rfl (by rw [hs]; exact hfree)
    (by rw [hs]; exact h.received) (by rw [hs]; rfl) (by rw [hs]) (by simp) trivial
    (.inl (by rw [hs])) ?_
  rw [hs]
  intro n hn
  rcases List.mem_append.1 hn with hn | hn
  · exact h.sizes n hn
  · rw [List.mem_singleton.1 hn, hsize]
    omega

/-- **Every step keeps the queue in order**, as long as no ticket uses up the
last cell. -/
theorem Fifo.step (hk : k ≤ 30) (h : Fifo w) (hst : Mpsc.step w e = some w')
    (hbelow : Below w e w') : Fifo w' := by
  obtain ⟨pc, pc', hpc, hnext, ht⟩ := Pool.step_eq_some hst
  have hmem := List.mem_of_getElem? hpc
  have hknows := h.window.knows _ (List.mem_map_of_mem hmem : pc.access ∈ w.onQueue.threads)
  have hfree := h.free
  -- the steps that change no history
  have hsame (s : Log T (2 ^ k)) (hs : w'.shared = s) (hq : s.tickets = w.shared.tickets)
      (htk : s.taken = w.shared.taken) (hr : s.received = w.shared.received)
      (hf : s.refused = w.shared.refused) (hz : s.sizes = w.shared.sizes)
      (hhead : s.queue.headIndex = w.shared.queue.headIndex)
      (ha : AccessStep w.shared.toTraced pc.access s.toTraced pc'.access)
      (hcons : pc'.consumes = pc.consumes) (htakes : pc'.access.takes = pc.access.takes)
      (hbreak : pc' ≠ .debugBreak) (hreads : pc'.Reads s) : Fifo w' := by
    subst hs
    refine h.of_access hk hpc ht ha hcons ?_ ?_ ?_ hf hbreak hreads (.inl hhead) ?_
    · rw [hq, htk]
      exact hfree
    · rw [hr, hq]
      exact h.received
    · rw [htk, hr, htakes]
    · rw [hz]
      exact h.sizes
  generalize hs : w'.shared = s at hnext
  cases pc with
  | producer =>
    rcases e with ⟨i, _ | x | _ | _⟩ <;> try cases hnext
    exact h.ticket_step hk hpc ht hs (h.room_of_below hk hs hbelow)
  | load t x =>
    have hunused := h.free_cell hmem (.inl rfl)
    simp only [next, hunused, Bool.false_eq_true, if_false, Option.some.injEq,
      Prod.mk.injEq] at hnext
    obtain ⟨rfl, rfl⟩ := hnext
    exact hsame _ hs rfl rfl rfl rfl rfl rfl (.vacant hunused) rfl rfl (by simp) trivial
  | put t x =>
    obtain ⟨rfl, rfl⟩ := Prod.mk.inj (Option.some.inj hnext)
    exact hsame _ hs rfl rfl rfl rfl rfl rfl .stored rfl rfl (by simp) trivial
  | publish t x =>
    have hunused : (w.shared.queue.exchangeUsed t true).1 = false :=
      h.free_cell hmem (.inr (.inr rfl))
    simp only [next, hunused, Bool.false_eq_true, if_false, Option.some.injEq,
      Prod.mk.injEq] at hnext
    obtain ⟨rfl, rfl⟩ := hnext
    exact hsame _ hs rfl rfl rfl rfl rfl rfl .published rfl rfl (by simp) trivial
  | consumer =>
    rcases e with ⟨i, _ | x | _ | _⟩ <;> try cases hnext
    · exact hsame _ hs rfl rfl rfl rfl rfl rfl .quiet rfl rfl (by simp) trivial
    · exact hsame _ hs rfl rfl rfl rfl rfl rfl .quiet rfl rfl (by simp) rfl
  | dequeue =>
    obtain ⟨rfl, rfl⟩ := Prod.mk.inj (Option.some.inj hnext)
    exact hsame _ hs rfl rfl rfl rfl rfl rfl .readHead rfl rfl (by simp) trivial
  | headLoad t =>
    obtain ⟨rfl, rfl⟩ := Prod.mk.inj (Option.some.inj hnext)
    by_cases hu : w.shared.queue.loadUsed t = true
    · simp only [hu, if_true] at hsame
      exact hsame _ hs rfl rfl rfl rfl rfl rfl (.used hu) rfl rfl (by simp) trivial
    · simp only [hu] at hsame
      exact hsame _ hs rfl rfl rfl rfl rfl rfl .unused rfl rfl (by simp) trivial
  | cas t =>
    by_cases hwon : (w.shared.queue.casHead t).1 = true
    · simp only [next, hwon, if_true, Option.some.injEq, Prod.mk.injEq] at hnext
      obtain ⟨rfl, rfl⟩ := hnext
      refine h.of_access hk hpc ht (by rw [hs]; exact .won hwon) rfl ?_
        (by rw [hs]; exact h.received)
        (by rw [hs]; rfl) (by rw [hs]) (by simp) trivial (.inr rfl) (by rw [hs]; exact h.sizes)
      rw [hs]
      change w.shared.tickets.length < w.shared.taken + 1 + 2 ^ k
      omega
    · rw [next, if_neg hwon] at hnext
      obtain ⟨rfl, rfl⟩ := Prod.mk.inj (Option.some.inj hnext)
      exact hsame _ hs rfl rfl rfl rfl rfl rfl .lost rfl rfl (by simp) trivial
  | take t =>
    obtain ⟨rfl, rfl⟩ := Prod.mk.inj (Option.some.inj hnext)
    exact hsame _ hs rfl rfl rfl rfl rfl rfl .read rfl rfl (by simp) trivial
  | clear t x =>
    obtain ⟨n, hn, rfl, hu, hget⟩ := hknows
    have hused : (w.shared.queue.exchangeUsed (idx 0 n) false).1 = true := hu
    simp only [next, hused, if_true, Option.some.injEq, Prod.mk.injEq] at hnext
    obtain ⟨rfl, rfl⟩ := hnext
    exact h.clear_step hk hpc ht hs hn hget
  | sizeTail t =>
    obtain rfl : t = w.shared.queue.headIndex := h.reads _ hmem
    obtain ⟨rfl, rfl⟩ := Prod.mk.inj (Option.some.inj hnext)
    exact h.size_step hk hpc ht hs
  | debugBreak => cases hnext

/-- **The cell at the head is published, awaited or without a ticket.** -/
theorem Fifo.published (h : Fifo w) (htakes : ∀ q ∈ w.threads, q.access.takes = 0) :
    w.shared.queue.loadUsed w.shared.queue.headIndex = true ↔
      w.shared.received.length < w.shared.tickets.length ∧
        ∀ q ∈ w.threads, q.access.fills w.shared.queue.headIndex = 0 := by
  have hzero : w.onQueue.total Access.takes = 0 := by
    refine Pool.total_eq_zero fun a ha => ?_
    obtain ⟨q, hq, rfl⟩ := List.mem_map.1 ha
    exact htakes q hq
  have hcell := h.window.cells w.shared.taken le_rfl (by
    have : 0 < 2 ^ k := Nat.two_pow_pos k
    rw [hzero]
    change w.shared.taken + 0 < w.shared.taken + 2 ^ k
    omega)
  have htaken := h.taken
  rw [hzero] at htaken
  have hhead : w.shared.queue.headIndex = idx 0 w.shared.taken := h.window.head
  rw [hhead]
  change (w.onQueue.total (Access.fills (idx 0 w.shared.taken)) +
    if w.shared.queue.loadUsed (idx 0 w.shared.taken) then 1 else 0) =
    if w.shared.taken < w.shared.tickets.length then 1 else 0 at hcell
  constructor
  · intro hu
    rw [if_pos hu] at hcell
    have hlt : w.shared.taken < w.shared.tickets.length := by
      by_contra hge
      rw [if_neg hge] at hcell
      omega
    rw [if_pos hlt] at hcell
    refine ⟨by omega, fun q hq => ?_⟩
    exact Pool.eq_zero_of_total (w := w.onQueue) (f := Access.fills _) (by omega)
      (List.mem_map_of_mem hq)
  · rintro ⟨hlt, hfills⟩
    have hnone : w.onQueue.total (Access.fills (idx 0 w.shared.taken)) = 0 := by
      refine Pool.total_eq_zero fun a ha => ?_
      obtain ⟨q, hq, rfl⟩ := List.mem_map.1 ha
      exact hfills q hq
    by_contra hu
    rw [if_neg hu, if_pos (by omega)] at hcell
    omega

/-- With no call under way the queue holds what was not received. -/
theorem Fifo.idle (h : Fifo w) (hidle : ∀ q ∈ w.threads, q = .producer ∨ q = .consumer) :
    w.shared.queue.loadUsed w.shared.queue.headIndex = true ↔
      w.shared.received.length < w.shared.tickets.length := by
  have houtside (q : Pc T) (hq : q ∈ w.threads) : q.access = .outside := by
    rcases hidle q hq with rfl | rfl <;> rfl
  rw [h.published fun q hq => by rw [houtside q hq]; rfl]
  exact and_iff_left fun q hq => by rw [houtside q hq]; rfl

/-! ### Calls return -/

section Solo

variable {i : ℕ}

/-- A thread whose next action is there takes it. -/
theorem step_of_next {s : Log T (2 ^ k)} {c : Event T} (hpc : w.threads[i]? = some pc)
    (hnext : next w.shared pc c = some (s, pc')) :
    Mpsc.step w (i, c) = some ⟨s, w.threads.set i pc'⟩ := by
  simp only [Mpsc.step, Pool.step, hpc, hnext, Option.map_some]

/-- An `Enqueue` under way goes on: its cell is free, its ticket stays. -/
theorem Fifo.next_producer (h : Fifo w) (c : Event T) (hmem : pc ∈ w.threads)
    (hrank : 0 < pc.rank) (hproducer : pc.consumes = 0) : ∃ s pc',
    next w.shared pc c = some (s, pc') ∧ pc'.rank + 1 = pc.rank ∧ pc'.consumes = 0 ∧
      s.tickets = w.shared.tickets ∧ s.received = w.shared.received := by
  cases pc with
  | load t x =>
    have hunused := h.free_cell hmem (.inl rfl)
    refine ⟨w.shared, .put t x, ?_, rfl, rfl, rfl, rfl⟩
    simp only [next, hunused, Bool.false_eq_true, if_false]
  | put t x => exact ⟨_, .publish t x, rfl, rfl, rfl, rfl, rfl⟩
  | publish t x =>
    have hunused : (w.shared.queue.exchangeUsed t true).1 = false :=
      h.free_cell hmem (.inr (.inr rfl))
    refine ⟨{ w.shared with queue := (w.shared.queue.exchangeUsed t true).2 }, .producer, ?_,
      rfl, rfl, rfl, rfl⟩
    simp only [next, hunused, Bool.false_eq_true, if_false]
  | producer | debugBreak => exact absurd hrank (lt_irrefl 0)
  | consumer | dequeue | headLoad | cas | take | clear | sizeTail =>
    exact absurd hproducer Nat.one_ne_zero

/-- So does a `Dequeue` or a `Size`: nobody else moves the head. -/
theorem Fifo.next_consumer (h : Fifo w) (c : Event T) (hmem : pc ∈ w.threads)
    (hrank : 0 < pc.rank) (hconsumer : pc.consumes = 1) : ∃ s pc',
    next w.shared pc c = some (s, pc') ∧ pc'.rank < pc.rank ∧ pc'.consumes = 1 := by
  have hknows := h.window.knows _ (List.mem_map_of_mem hmem : pc.access ∈ w.onQueue.threads)
  cases pc with
  | dequeue => exact ⟨_, .headLoad _, rfl, Nat.lt_succ_self _, rfl⟩
  | headLoad t =>
    by_cases hu : w.shared.queue.loadUsed t = true
    · refine ⟨w.shared, .cas t, ?_, Nat.lt_succ_self _, rfl⟩
      simp only [next, hu, if_true]
    · refine ⟨w.shared, .consumer, ?_, Nat.succ_pos _, rfl⟩
      simp only [next, hu, Bool.false_eq_true, if_false]
  | cas t =>
    obtain ⟨rfl, -⟩ := hknows
    have hwon : (w.shared.queue.casHead w.onQueue.shared.queue.headIndex).1 = true :=
      congrArg Prod.fst (if_pos rfl)
    refine ⟨{ w.shared with
      queue := (w.shared.queue.casHead w.onQueue.shared.queue.headIndex).2
      taken := w.shared.taken + 1 }, .take w.shared.queue.headIndex, ?_, Nat.lt_succ_self _, rfl⟩
    simp only [next, hwon, if_true]
    rfl
  | take t => exact ⟨_, .clear t _, rfl, Nat.lt_succ_self _, rfl⟩
  | clear t x =>
    obtain ⟨n, hn, rfl, hu, hget⟩ := hknows
    have hused : (w.shared.queue.exchangeUsed (idx 0 n) false).1 = true := hu
    refine ⟨{ w.shared with
      queue := (w.shared.queue.exchangeUsed (idx 0 n) false).2
      received := w.shared.received ++ [x] }, .consumer, ?_, Nat.lt_succ_self _, rfl⟩
    simp only [next, hused, if_true]
  | sizeTail t => exact ⟨_, .consumer, rfl, Nat.lt_succ_self _, rfl⟩
  | consumer | debugBreak => exact absurd hrank (lt_irrefl 0)
  | producer | load | put | publish => exact absurd hconsumer Nat.zero_ne_one

/-- **A call under way has its next step**, and fewer to go. -/
theorem Fifo.returns (h : Fifo w) (c : Event T) (hpc : w.threads[i]? = some pc)
    (hrank : 0 < pc.rank) : ∃ w' pc', Mpsc.step w (i, c) = some w' ∧
      w'.threads = w.threads.set i pc' ∧ pc'.rank < pc.rank ∧ pc'.consumes = pc.consumes := by
  have hmem := List.mem_of_getElem? hpc
  by_cases hproducer : pc.consumes = 0
  · obtain ⟨s, pc', hnext, hlt, hcons, -⟩ := h.next_producer c hmem hrank hproducer
    exact ⟨_, pc', step_of_next hpc hnext, rfl, by omega, by omega⟩
  · have hconsumer : pc.consumes = 1 := by
      have := (Pool.le_total Pc.consumes hmem).trans h.one
      omega
    obtain ⟨s, pc', hnext, hlt, hcons⟩ := h.next_consumer c hmem hrank hconsumer
    exact ⟨_, pc', step_of_next hpc hnext, rfl, hlt, by omega⟩

/-- A producer that has its ticket gets to the end of `Enqueue` alone. -/
theorem Fifo.finishes (hk : k ≤ 30) {n : ℕ} (h : Fifo w) (hpc : w.threads[i]? = some pc)
    (hrank : pc.rank = n) (hproducer : pc.consumes = 0) (hbreak : pc ≠ .debugBreak) :
    ∃ w', exec Mpsc.step w (List.replicate n (i, .go)) = some w' ∧
      w'.threads = w.threads.set i .producer ∧ w'.shared.tickets = w.shared.tickets ∧
      w'.shared.refused = [] ∧ w'.shared.received = w.shared.received := by
  induction n generalizing w pc with
  | zero =>
    obtain ⟨hlt, hget⟩ := List.getElem?_eq_some_iff.1 hpc
    have hend : pc = .producer := by
      cases pc with
      | producer => rfl
      | debugBreak => exact absurd rfl hbreak
      | consumer => cases hproducer
      | _ => cases hrank
    refine ⟨w, rfl, ?_, rfl, h.accepted, rfl⟩
    rw [← hend, ← hget, List.set_getElem_self]
  | succ n ih =>
    obtain ⟨s, pc', hnext, hlt, hcons, htickets, hreceived⟩ :=
      h.next_producer .go (List.mem_of_getElem? hpc) (by omega) hproducer
    have hstep := step_of_next hpc hnext
    have hkept := h.step hk hstep (.inl (congrArg List.length htickets))
    have hpc' : (w.threads.set i pc')[i]? = some pc' :=
      List.getElem?_set_self (List.getElem?_eq_some_iff.1 hpc).1
    obtain ⟨w', hw', hthreads, htickets', hrefused, hreceived'⟩ := ih hkept hpc' (by omega) hcons
      fun heq => hkept.noBreak (heq ▸ List.mem_of_getElem? hpc')
    refine ⟨w', exec_cons_iff.2 ⟨_, hstep, hw'⟩, ?_, htickets'.trans htickets, hrefused,
      hreceived'.trans hreceived⟩
    rw [hthreads, List.set_set]

/-- **`Enqueue` is accepted** where its ticket leaves a cell free. -/
theorem Fifo.enqueues (hk : k ≤ 30) (h : Fifo w) {x : T} (hpc : w.threads[i]? = some .producer)
    (hsize : w.shared.queue.size < (2 ^ k : ℕ) - 1) :
    ∃ w', exec Mpsc.step w (enqueueEvents i x) = some w' ∧ w'.threads = w.threads ∧
      w'.shared.tickets = w.shared.tickets ++ [x] ∧ w'.shared.refused = [] ∧
      w'.shared.received = w.shared.received := by
  obtain ⟨hlt, hget⟩ := List.getElem?_eq_some_iff.1 hpc
  have hstep : Mpsc.step w (i, .enqueue x) = some ⟨{ w.shared with
      queue := w.shared.queue.fetchAddTail.2, tickets := w.shared.tickets ++ [x] },
      w.threads.set i (.load w.shared.queue.fetchAddTail.1 x)⟩ := step_of_next hpc rfl
  have hroom : w.shared.tickets.length + 1 < w.shared.taken + 2 ^ k := by
    have := h.window.size_eq hk
    change w.shared.queue.size = (w.shared.tickets.length : ℤ) - w.shared.taken at this
    omega
  have hkept : Fifo (⟨{ w.shared with
      queue := w.shared.queue.fetchAddTail.2, tickets := w.shared.tickets ++ [x] },
      w.threads.set i (.load w.shared.queue.fetchAddTail.1 x)⟩ : World T k) :=
    h.ticket_step hk (e := (i, .enqueue x)) (x := x) hpc rfl rfl hroom
  obtain ⟨w', hw', hthreads, htickets, hrefused, hreceived⟩ := hkept.finishes hk
    (n := 3) (List.getElem?_set_self hlt) rfl rfl (by simp)
  refine ⟨w', exec_cons_iff.2 ⟨_, hstep, hw'⟩, ?_, htickets, hrefused, hreceived⟩
  rw [hthreads, List.set_set, ← hget, List.set_getElem_self]

/-- **`Dequeue` obtains the next element** once the cell at the head is
published. -/
theorem Fifo.dequeues (h : Fifo w) (hpc : w.threads[i]? = some .consumer)
    (hu : w.shared.queue.loadUsed w.shared.queue.headIndex = true) :
    ∃ w' x, exec Mpsc.step w (dequeueEvents i) = some w' ∧ w'.threads = w.threads ∧
      w.shared.tickets[w.shared.received.length]? = some x ∧
      w'.shared.received = w.shared.received ++ [x] ∧ w'.shared.tickets = w.shared.tickets := by
  obtain ⟨hlt, hget⟩ := List.getElem?_eq_some_iff.1 hpc
  -- the one consumer is outside, so nothing is dequeued and not cleared
  have hzero : w.onQueue.total Access.takes = 0 := by
    have hle := Pool.total_add_le (w := w) (f := fun q => q.access.takes) (g := Pc.consumes)
      (fun q => (Access.takes_le _).trans q.drains_le) (List.mem_of_getElem? hpc)
    change w.total _ + 1 ≤ w.total Pc.consumes + 0 at hle
    have hone := h.one
    have hsum : w.onQueue.total Access.takes = w.total fun q => q.access.takes := by
      simp only [Pool.total, World.onQueue, List.map_map, Function.comp_def]
    omega
  have hhead : w.shared.queue.headIndex = idx 0 w.shared.taken := h.window.head
  have htaken := h.taken
  obtain ⟨htickets, -⟩ := h.window.lt_of_used hzero (hhead ▸ hu)
  have hdata := h.window.data _ le_rfl htickets (by
    have : 0 < 2 ^ k := Nat.two_pow_pos k
    omega) (hhead ▸ hu)
  change w.shared.tickets[w.shared.taken]? =
    some (w.shared.queue.getData (idx 0 w.shared.taken)) at hdata
  rw [← hhead, show w.shared.taken = w.shared.received.length by omega] at hdata
  have hcas : w.shared.queue.casHead w.shared.queue.headIndex =
      (true, { w.shared.queue with headIndex := w.shared.queue.headIndex + 1 }) := if_pos rfl
  have hsolo : Pool.solo next w.shared (.consumer : Pc T) (.dequeue :: List.replicate 5 .go) =
      some ({ w.shared with
        queue := (LockFreeFixedQueue.exchangeUsed
          { w.shared.queue with headIndex := w.shared.queue.headIndex + 1 }
          w.shared.queue.headIndex false).2
        taken := w.shared.taken + 1
        received := w.shared.received ++ [w.shared.queue.getData w.shared.queue.headIndex] },
        .consumer) := by
    have hused : (LockFreeFixedQueue.exchangeUsed
        { w.shared.queue with headIndex := w.shared.queue.headIndex + 1 }
        w.shared.queue.headIndex false).1 = true := hu
    simp only [List.replicate, Pool.solo, next, hu, hcas, hused, if_true, Option.bind_some]
    rfl
  refine ⟨_, _, Pool.exec_of_solo hpc hsolo, ?_, hdata, rfl, rfl⟩
  change w.threads.set i .consumer = w.threads
  rw [← hget, List.set_getElem_self]

end Solo

theorem Fifo.correct (hk : k ≤ 30) (h : Fifo w) : Correct w where
  accepted := h.accepted
  noBreak := h.noBreak
  received := by
    rw [h.received]
    exact List.take_prefix _ _
  all := h.idle
  published := h.published
  returns := fun _ _ c hpc hrank => h.returns c hpc hrank
  enqueues := fun _ _ hpc hsize => h.enqueues hk hpc hsize
  dequeues := fun _ hpc hu => h.dequeues hpc hu
  read := by
    intro t ht
    obtain ⟨n, hn, rfl, hu, hget⟩ := h.window.knows _ (List.mem_map_of_mem ht)
    have hnext := h.next_received ht rfl
    change w.shared.taken = n + 1 at hn
    obtain rfl : n = w.shared.received.length := by omega
    refine ⟨hu, hget, fun t' x hput hcell => ?_⟩
    -- a producer about to write has a ticket of the window
    obtain ⟨m, hm, hm', rfl, -⟩ := h.window.knows _ (List.mem_map_of_mem hput)
    have hc : w.onQueue.total Access.takes = 1 := by
      have := h.taken
      omega
    have hpos : 0 < 2 ^ k := Nat.two_pow_pos k
    change w.shared.taken ≤ m at hm
    change m + _ < w.shared.taken + 2 ^ k at hm'
    rw [hc] at hm'
    have := idx_cell_inj (c := 1) (t := w.shared.taken) hk (by omega) hm' (by omega) (by omega)
      hcell
    omega
  write := fun _ _ hput => h.free_cell hput (.inr (.inl rfl))
  sizes := h.sizes

end Step

/-- **Below its capacity the queue is a FIFO queue**, over any number of laps
of the indices. -/
theorem correct_below [Inhabited T] (hk : k ≤ 30) (n : ℕ) {w : World T k}
    (h : Runs step Below (World.initial n) w) : Correct w :=
  (h.invariant (Fifo.initial n) fun hfifo hst hbelow => hfifo.step hk hst hbelow).correct hk

/-- Two producers and a consumer at a queue of two cells. The second ticket is
taken while the first element is still to be read. -/
def twoElements : List (ℕ × Event ℕ) :=
  [(1, .enqueue 7), (1, .go), (1, .go), (1, .go), (0, .dequeue), (0, .go), (0, .go), (0, .go),
    (2, .enqueue 8), (0, .go), (2, .go), (2, .go), (0, .go), (2, .go), (0, .size), (0, .go),
    (0, .dequeue), (0, .go), (0, .go), (0, .go), (0, .go), (0, .go)]

theorem correct_below_two : ∃ w, exec step (World.initial 2 : World ℕ 1) twoElements = some w ∧
    Correct w ∧ w.shared.received = [7, 8] ∧ w.shared.tickets = [7, 8] ∧
    w.threads = [.consumer, .producer, .producer] := by
  obtain ⟨w, hw, heq⟩ := Option.map_eq_some_iff.1
    (show (exec step (World.initial 2 : World ℕ 1) twoElements).map
      (fun w => (w.shared.received, w.shared.tickets, w.threads)) =
        some ([7, 8], [7, 8], [.consumer, .producer, .producer]) by rfl)
  obtain ⟨hreceived, htickets, hthreads⟩ := by simpa only [Prod.mk.injEq] using heq
  exact ⟨w, hw, correct_below (by omega) 2 (runs_of_exec hw (by decide +kernel)), hreceived,
    htickets, hthreads⟩

end Mpsc

end LockFreeFixedQueue

end NetLib
