import NetLib.Library.Pool
import NetLib.Queue.Model
/-!
# `LockFreeFixedQueue` with many producers and one consumer at a time

The same queue, one access at a time, with its history: the element of each
ticket, and how many were dequeued. `Window` says what the cells hold while
producers are between ticket and publication: the cell of every ticket that
was taken and not dequeued is either published, with the ticket's element,
or awaited from exactly one producer. It is kept as long as one thread at a
time dequeues, no more tickets are out than there are cells, and no
`Enqueue` is refused.
-/

namespace NetLib

namespace LockFreeFixedQueue

variable {T : Type} {k : ℕ}

/-- Where a thread is inside `Enqueue` or `Dequeue`. -/
inductive Access (T : Type)
  | outside
  | load (tail : BitVec 32) (data : T)
  | put (tail : BitVec 32) (data : T)
  | publish (tail : BitVec 32) (data : T)
  | headLoad (head : BitVec 32)
  | cas (head : BitVec 32)
  | take (head : BitVec 32)
  | clear (head : BitVec 32) (data : T)

/-- The queue and its history. -/
structure Traced (T : Type) (N : ℕ) where
  queue : LockFreeFixedQueue T N
  /-- the elements in the order of their tickets -/
  tickets : List T
  /-- how many were dequeued -/
  taken : ℕ

/-- One access of a thread. A ticket beyond the capacity and the refusal of
`Enqueue` are not among them. -/
inductive AccessStep (s : Traced T (2 ^ k)) : Access T → Traced T (2 ^ k) → Access T → Prop
  | quiet : AccessStep s .outside s .outside
  | ticket (x : T) (hroom : s.tickets.length < s.taken + 2 ^ k) : AccessStep s .outside
      { s with queue := s.queue.fetchAddTail.2, tickets := s.tickets ++ [x] }
      (.load s.queue.fetchAddTail.1 x)
  | vacant {t : BitVec 32} {x : T} (h : s.queue.loadUsed t = false) :
      AccessStep s (.load t x) s (.put t x)
  | stored {t : BitVec 32} {x : T} :
      AccessStep s (.put t x) { s with queue := s.queue.putData t x } (.publish t x)
  | published {t : BitVec 32} {x : T} :
      AccessStep s (.publish t x) { s with queue := (s.queue.exchangeUsed t true).2 } .outside
  | readHead : AccessStep s .outside s (.headLoad s.queue.headIndex)
  | unused {h : BitVec 32} : AccessStep s (.headLoad h) s .outside
  | used {h : BitVec 32} (hu : s.queue.loadUsed h = true) : AccessStep s (.headLoad h) s (.cas h)
  | lost {h : BitVec 32} : AccessStep s (.cas h) s .outside
  | won {h : BitVec 32} (hw : (s.queue.casHead h).1 = true) :
      AccessStep s (.cas h) { s with queue := (s.queue.casHead h).2, taken := s.taken + 1 }
        (.take h)
  | read {h : BitVec 32} : AccessStep s (.take h) s (.clear h (s.queue.getData h))
  | cleared {h : BitVec 32} {x : T} :
      AccessStep s (.clear h x) { s with queue := (s.queue.exchangeUsed h false).2 } .outside

/-- Only the won compare-exchange moves the head. -/
theorem AccessStep.head {s s' : Traced T (2 ^ k)} {a a' : Access T} (h : AccessStep s a s' a') :
    (s'.queue.headIndex = s.queue.headIndex ∧ s'.taken = s.taken ∧
        s.tickets.length ≤ s'.tickets.length) ∨
      ∃ t, a = .cas t ∧ a' = .take t ∧ s'.tickets = s.tickets := by
  cases h with
  | won hw => exact .inr ⟨_, rfl, rfl, rfl⟩
  | ticket x => exact .inl ⟨rfl, rfl, by simp⟩
  | _ => exact .inl ⟨rfl, rfl, le_rfl⟩

/-- Only a new ticket adds to the tickets. -/
theorem AccessStep.tickets {s s' : Traced T (2 ^ k)} {a a' : Access T} (h : AccessStep s a s' a') :
    s'.tickets = s.tickets ∨ ∃ t x, a' = .load t x := by
  cases h with
  | ticket x => exact .inr ⟨_, x, rfl⟩
  | _ => exact .inl rfl

/-! ## The invariant -/

/-- Is the thread the producer of the ticket with index `t`? -/
def Access.fills (t : BitVec 32) : Access T → ℕ
  | .load t' _ | .put t' _ | .publish t' _ => if t' = t then 1 else 0
  | _ => 0

/-- Has the thread moved `headIndex` past a cell it has not cleared yet? -/
def Access.takes : Access T → ℕ
  | .take _ | .clear _ _ => 1
  | _ => 0

/-- Is the thread inside `Dequeue`? -/
def Access.drains : Access T → ℕ
  | .headLoad _ | .cas _ | .take _ | .clear _ _ => 1
  | _ => 0

theorem Access.takes_le (a : Access T) : a.takes ≤ a.drains := by
  cases a <;> simp [takes, drains]

/-- The index of the `n`-th ticket of the history, which starts at `b`. -/
def idx (b n : ℕ) : BitVec 32 := BitVec.ofNat 32 (b + n)

/-- What a producer or consumer knows, with `c` cells dequeued and not yet
cleared. -/
def Access.Knows (b c : ℕ) (s : Traced T (2 ^ k)) : Access T → Prop
  | .load t x => ∃ n, s.taken ≤ n ∧ t = idx b n ∧ s.tickets[n]? = some x
  | .put t x => ∃ n, s.taken ≤ n ∧ n + c < s.taken + 2 ^ k ∧ t = idx b n ∧ s.tickets[n]? = some x
  | .publish t x => ∃ n, s.taken ≤ n ∧ n + c < s.taken + 2 ^ k ∧ t = idx b n ∧
      s.tickets[n]? = some x ∧ s.queue.getData t = x
  | .headLoad h => h = s.queue.headIndex
  | .cas h => h = s.queue.headIndex ∧ s.queue.loadUsed h = true
  | .take h => ∃ n, s.taken = n + 1 ∧ h = idx b n ∧ s.queue.loadUsed h = true ∧
      s.tickets[n]? = some (s.queue.getData h)
  | .clear h x => ∃ n, s.taken = n + 1 ∧ h = idx b n ∧ s.queue.loadUsed h = true ∧
      s.tickets[n]? = some x
  | .outside => True

/-- The cells between the two indices. -/
structure Window (b : ℕ) (w : Pool (Traced T (2 ^ k)) (Access T)) : Prop where
  head : w.shared.queue.headIndex = idx b w.shared.taken
  tail : w.shared.queue.tailIndex = idx b w.shared.tickets.length
  le : w.shared.taken ≤ w.shared.tickets.length
  room : w.shared.tickets.length ≤ w.shared.taken + 2 ^ k
  /-- A cell of the window is published or awaited, if its ticket was taken. -/
  cells : ∀ n, w.shared.taken ≤ n → n + w.total Access.takes < w.shared.taken + 2 ^ k →
    (w.total (Access.fills (idx b n)) + if w.shared.queue.loadUsed (idx b n) then 1 else 0) =
      if n < w.shared.tickets.length then 1 else 0
  /-- A ticket that shares the cell just dequeued has its producer. -/
  late : ∀ n, n < w.shared.tickets.length → w.shared.taken + 2 ^ k ≤ n + w.total Access.takes →
    w.total (Access.fills (idx b n)) = 1
  /-- A published cell holds the element of its ticket. -/
  data : ∀ n, w.shared.taken ≤ n → n < w.shared.tickets.length →
    n + w.total Access.takes < w.shared.taken + 2 ^ k →
    w.shared.queue.loadUsed (idx b n) = true →
    w.shared.tickets[n]? = some (w.shared.queue.getData (idx b n))
  knows : ∀ a ∈ w.threads, a.Knows b (w.total Access.takes) w.shared

section Step

variable {b i : ℕ} {w w' : Pool (Traced T (2 ^ k)) (Access T)} {a a' : Access T}

theorem loadUsed_congr {N : ℕ} (q : LockFreeFixedQueue T N) {i j : BitVec 32}
    (h : cell N i = cell N j) : q.loadUsed i = q.loadUsed j := by
  simp only [loadUsed, h]

/-- An empty queue that nobody uses, and no ticket yet. -/
theorem Window.start (hhead : w.shared.queue.headIndex = idx b 0)
    (htail : w.shared.queue.tailIndex = idx b 0) (htickets : w.shared.tickets = [])
    (htaken : w.shared.taken = 0) (hunused : ∀ t, w.shared.queue.loadUsed t = false)
    (houtside : ∀ a ∈ w.threads, a = .outside) : Window b w := by
  have hlength : w.shared.tickets.length = 0 := by rw [htickets, List.length_nil]
  exact {
    head := by rw [htaken, hhead]
    tail := by rw [hlength, htail]
    le := by omega
    room := hlength ▸ Nat.zero_le _
    cells := fun n _ _ => by
      rw [Pool.total_of_forall_eq houtside rfl, hunused, hlength]
      rfl
    late := fun n hn _ => by omega
    data := fun n _ hn _ _ => by omega
    knows := fun a ha => by
      rw [houtside a ha]
      trivial }

/-- The distance of an index of the window from the head, wherever it wraps. -/
theorem Window.toInt_sub_head (hk : k ≤ 30) (h : Window b w) {n : ℕ} (hn : w.shared.taken ≤ n)
    (hn' : n ≤ w.shared.taken + 2 ^ k) :
    (idx b n - w.shared.queue.headIndex).toInt = (n : ℤ) - w.shared.taken := by
  have hpow := Nat.pow_le_pow_right (n := 2) (by omega) hk
  obtain ⟨d, rfl⟩ := Nat.exists_eq_add_of_le hn
  rw [h.head, idx, idx, ← Nat.add_assoc, toInt_sub_ofNat (by omega)]
  omega

/-- `Size()` counts the tickets out. -/
theorem Window.size_eq (hk : k ≤ 30) (h : Window b w) :
    w.shared.queue.size = (w.shared.tickets.length : ℤ) - w.shared.taken := by
  rw [size, h.tail]
  exact h.toInt_sub_head hk h.le h.room

/-- Two tickets of the window share no cell. -/
theorem idx_cell_inj (hk : k ≤ 30) {t c m n : ℕ} (hm : t ≤ m + c)
    (hm' : m + c < t + 2 ^ k) (hn : t ≤ n + c) (hn' : n + c < t + 2 ^ k)
    (heq : cell (2 ^ k) (idx b m) = cell (2 ^ k) (idx b n)) : m = n := by
  have hpos : 0 < 2 ^ k := Nat.two_pow_pos k
  by_cases hcb : c ≤ b + t
  · have := cell_inj_of_lt (by omega) (h := b + t - c) (by omega) (by omega) (by omega)
      (by omega) heq
    omega
  · have := cell_inj_of_lt (by omega) (h := 0) (by omega) (by omega) (by omega) (by omega) heq
    omega

/-- Nor an index. -/
theorem idx_inj (hk : k ≤ 30) {taken m n : ℕ} (hm : taken ≤ m) (hm' : m ≤ taken + 2 ^ k)
    (hn : taken ≤ n) (hn' : n ≤ taken + 2 ^ k) (heq : idx b m = idx b n) : m = n := by
  have hpow : 2 ^ k < 2 ^ 32 := Nat.pow_lt_pow_right (by omega) (by omega)
  have := ofNat_inj_of_lt (h := b + taken) (by omega) (by omega) (by omega) (by omega) heq
  omega

/-- The ticket of a producer. -/
theorem Access.Knows.ticket {c : ℕ} {s : Traced T (2 ^ k)} (h : a.Knows b c s) {t : BitVec 32}
    (hf : 0 < a.fills t) : ∃ n x, s.taken ≤ n ∧ t = idx b n ∧ s.tickets[n]? = some x := by
  have hif {t' : BitVec 32} (hpos : 0 < if t' = t then 1 else 0) : t' = t := by
    by_contra hne
    rw [if_neg hne] at hpos
    exact lt_irrefl _ hpos
  cases a with
  | load t' x =>
    obtain ⟨n, hn, ht, hget⟩ := h
    exact ⟨n, x, hn, hif hf ▸ ht, hget⟩
  | put t' x =>
    obtain ⟨n, hn, -, ht, hget⟩ := h
    exact ⟨n, x, hn, hif hf ▸ ht, hget⟩
  | publish t' x =>
    obtain ⟨n, hn, -, ht, hget, -⟩ := h
    exact ⟨n, x, hn, hif hf ▸ ht, hget⟩
  | _ => exact absurd hf (lt_irrefl 0)

/-- A ticket not taken yet has no producer. -/
theorem Window.fills_eq_zero (hk : k ≤ 30) (h : Window b w) {n : ℕ}
    (hn : w.shared.tickets.length ≤ n) (hn' : n ≤ w.shared.taken + 2 ^ k) :
    w.total (Access.fills (idx b n)) = 0 := by
  by_contra hne
  obtain ⟨a, ha, hpos⟩ := Pool.exists_of_total_pos (Nat.pos_of_ne_zero hne)
  obtain ⟨m, x, hm, heq, hget⟩ := (h.knows a ha).ticket hpos
  obtain ⟨hlt, -⟩ := List.getElem?_eq_some_iff.1 hget
  have hroom := h.room
  have hle := h.le
  have := idx_inj hk (by omega) hn' hm (by omega) heq
  omega

/-- With a cell dequeued and not cleared, that cell is still published. -/
theorem Window.uncleared (h : Window b w) (hc : 0 < w.total Access.takes) :
    ∃ n, w.shared.taken = n + 1 ∧ w.shared.queue.loadUsed (idx b n) = true := by
  obtain ⟨a, ha, hpos⟩ := Pool.exists_of_total_pos hc
  have hknows := h.knows a ha
  cases a with
  | take t =>
    obtain ⟨n, hn, rfl, hu, -⟩ := hknows
    exact ⟨n, hn, hu⟩
  | clear t x =>
    obtain ⟨n, hn, rfl, hu, -⟩ := hknows
    exact ⟨n, hn, hu⟩
  | _ => exact absurd hpos (lt_irrefl 0)

/-- A published cell at the head belongs to a ticket. -/
theorem Window.lt_of_used (h : Window b w) (hc : w.total Access.takes = 0)
    (hu : w.shared.queue.loadUsed (idx b w.shared.taken) = true) :
    w.shared.taken < w.shared.tickets.length ∧
      w.total (Access.fills (idx b w.shared.taken)) = 0 := by
  have hpos : 0 < 2 ^ k := Nat.two_pow_pos k
  have hcell := h.cells _ le_rfl (by omega)
  rw [hu, if_pos rfl] at hcell
  split at hcell <;> omega

/-- An access that changes neither the queue nor who produces what. -/
theorem Window.same_step (h : Window b w) (ha : w.threads[i]? = some a)
    (ht : w'.threads = w.threads.set i a') (hs : w'.shared = w.shared)
    (hfills : ∀ t, a'.fills t = a.fills t) (htakes : a'.takes = a.takes)
    (hknows : a'.Knows b (w.total Access.takes) w.shared) : Window b w' := by
  have hf (t : BitVec 32) : w'.total (Access.fills t) = w.total (Access.fills t) := by
    have := Pool.total_step (e := (i, ())) (Access.fills t) ha ht
    have := hfills t
    omega
  have hc : w'.total Access.takes = w.total Access.takes := by
    have := Pool.total_step (e := (i, ())) Access.takes ha ht
    omega
  exact {
    head := hs ▸ h.head
    tail := hs ▸ h.tail
    le := hs ▸ h.le
    room := hs ▸ h.room
    cells := by simpa only [hs, hf, hc] using h.cells
    late := by simpa only [hs, hf, hc] using h.late
    data := by simpa only [hs, hc] using h.data
    knows := by
      rw [hs, hc]
      exact Pool.forall_threads (e := (i, ())) ht h.knows hknows }

/-- `tailIndex.fetch_add(1)` -/
theorem Window.ticket_step (hk : k ≤ 30) (h : Window b w) {x : T}
    (ha : w.threads[i]? = some .outside)
    (ht : w'.threads = w.threads.set i (.load w.shared.queue.tailIndex x))
    (hs : w'.shared =
      { w.shared with queue := w.shared.queue.fetchAddTail.2, tickets := w.shared.tickets ++ [x] })
    (hc : w.total Access.takes ≤ 1)
    (hroom : w.shared.tickets.length < w.shared.taken + 2 ^ k) : Window b w' := by
  have hle := h.le
  have htail := h.tail
  have hmove (f : Access T → ℕ) (h0 : f .outside = 0) :
      w'.total f = w.total f + f (.load w.shared.queue.tailIndex x) := by
    have := Pool.total_step (e := (i, ())) f ha ht
    omega
  have htakes : w'.total Access.takes = w.total Access.takes := hmove _ rfl
  -- the new producer is the only one of the new ticket, and changes no other
  have hfills {n : ℕ} (hn : w.shared.taken ≤ n) (hn' : n ≤ w.shared.taken + 2 ^ k) :
      w'.total (Access.fills (idx b n)) =
        w.total (Access.fills (idx b n)) + if n = w.shared.tickets.length then 1 else 0 := by
    rw [hmove _ rfl, Access.fills, htail]
    by_cases heq : n = w.shared.tickets.length
    · rw [if_pos heq, heq, if_pos rfl]
    · rw [if_neg heq, if_neg fun he => heq (idx_inj hk hn hn' hle (by omega) he.symm)]
  have hnew := h.fills_eq_zero hk le_rfl hroom.le
  have hold {n : ℕ} {y : T} (hy : w.shared.tickets[n]? = some y) :
      (w.shared.tickets ++ [x])[n]? = some y := by
    obtain ⟨hlt, -⟩ := List.getElem?_eq_some_iff.1 hy
    rw [List.getElem?_append_left hlt, hy]
  refine {
    head := ?_, tail := ?_, le := ?_, room := ?_, cells := ?_, late := ?_, data := ?_, knows := ?_ }
  · rw [hs]; exact h.head
  · rw [hs]
    simp only [fetchAddTail, htail, List.length_append, List.length_singleton]
    exact ofNat_add_one _
  · rw [hs]; simp only [List.length_append, List.length_singleton]; omega
  · rw [hs]; simp only [List.length_append, List.length_singleton]; omega
  · rw [hs, htakes]
    intro n hn hn'
    simp only [List.length_append, List.length_singleton] at hn hn' ⊢
    have hcell := h.cells n hn hn'
    rw [hfills hn (by omega)]
    change _ + _ + (if w.shared.queue.loadUsed (idx b n) then 1 else 0) = _
    generalize (if w.shared.queue.loadUsed (idx b n) = true then 1 else 0) = u at hcell ⊢
    rcases lt_trichotomy n w.shared.tickets.length with hlt | heq | hgt
    · rw [if_pos hlt] at hcell
      rw [if_neg hlt.ne, if_pos (by omega)]
      omega
    · rw [if_neg heq.not_lt, heq, hnew] at hcell
      rw [if_pos heq, if_pos (by omega), heq, hnew]
      omega
    · rw [if_neg (by omega)] at hcell
      rw [if_neg hgt.ne', if_neg (by omega)]
      omega
  · rw [hs, htakes]
    intro n hn hn'
    simp only [List.length_append, List.length_singleton] at hn hn'
    rw [hfills (by omega) (by omega)]
    by_cases heq : n = w.shared.tickets.length
    · rw [if_pos heq, heq, hnew]
    · rw [if_neg heq, h.late n (by omega) hn']
  · rw [hs, htakes]
    intro n hn hlt hn' hu
    simp only [List.length_append, List.length_singleton] at hn hlt hn'
    refine hold (h.data n hn ?_ hn' hu)
    have hcell := h.cells n hn hn'
    rw [show w.shared.queue.loadUsed (idx b n) = true from hu, if_pos rfl] at hcell
    by_contra hge
    rw [if_neg hge] at hcell
    omega
  · rw [htakes, hs]
    refine Pool.forall_threads (e := (i, ())) ht (fun a ha => ?_) ?_
    · have hknows := h.knows a ha
      cases a with
      | load t y =>
        obtain ⟨n, hn, htn, hget⟩ := hknows
        exact ⟨n, hn, htn, hold hget⟩
      | put t y =>
        obtain ⟨n, hn, hlt, htn, hget⟩ := hknows
        exact ⟨n, hn, hlt, htn, hold hget⟩
      | publish t y =>
        obtain ⟨n, hn, hlt, htn, hget, hd⟩ := hknows
        exact ⟨n, hn, hlt, htn, hold hget, hd⟩
      | take t =>
        obtain ⟨n, hn, htn, hu, hget⟩ := hknows
        exact ⟨n, hn, htn, hu, hold hget⟩
      | clear t y =>
        obtain ⟨n, hn, htn, hu, hget⟩ := hknows
        exact ⟨n, hn, htn, hu, hold hget⟩
      | outside | headLoad | cas => exact hknows
    · exact ⟨w.shared.tickets.length, hle, htail, by simp⟩

/-- A ticket of the window with a producer has no other, and its cell is not
published. -/
theorem Window.produced (h : Window b w) {n : ℕ} (hn : w.shared.taken ≤ n)
    (hn' : n + w.total Access.takes < w.shared.taken + 2 ^ k)
    (hf : 0 < w.total (Access.fills (idx b n))) :
    w.total (Access.fills (idx b n)) = 1 ∧ w.shared.queue.loadUsed (idx b n) = false ∧
      n < w.shared.tickets.length := by
  have hcell := h.cells n hn hn'
  cases hu : w.shared.queue.loadUsed (idx b n)
  · rw [hu, if_neg Bool.false_ne_true] at hcell
    split at hcell
    · exact ⟨hcell, rfl, by assumption⟩
    · omega
  · rw [hu, if_pos rfl] at hcell
    split at hcell <;> omega

/-- The data of a cell is written by the producer of its ticket. -/
theorem Window.stored_step (hk : k ≤ 30) (h : Window b w) {t : BitVec 32} {x : T}
    (ha : w.threads[i]? = some (.put t x)) (ht : w'.threads = w.threads.set i (.publish t x))
    (hs : w'.shared = { w.shared with queue := w.shared.queue.putData t x })
    (hc : w.total Access.takes ≤ 1) : Window b w' := by
  obtain ⟨n, hn, hn', rfl, hget⟩ := h.knows _ (List.mem_of_getElem? ha)
  have hmove (f : Access T → ℕ) (hf : f (.publish (idx b n) x) = f (.put (idx b n) x)) :
      w'.total f = w.total f := by
    have := Pool.total_step (e := (i, ())) f ha ht
    omega
  have htakes : w'.total Access.takes = w.total Access.takes := hmove _ rfl
  have hfills (t : BitVec 32) : w'.total (Access.fills t) = w.total (Access.fills t) := hmove _ rfl
  have hmine : 0 < w.total (Access.fills (idx b n)) :=
    (Nat.lt_of_lt_of_eq Nat.one_pos (by simp [Access.fills])).trans_le
      (Pool.le_total _ (List.mem_of_getElem? ha))
  obtain ⟨hone, hclear, -⟩ := h.produced hn hn' hmine
  -- every other cell of the window keeps its data
  have hother {m : ℕ} (hm : w.shared.taken ≤ m + w.total Access.takes)
      (hm' : m + w.total Access.takes < w.shared.taken + 2 ^ k) (hne : m ≠ n) :
      (w.shared.queue.putData (idx b n) x).getData (idx b m) =
        w.shared.queue.getData (idx b m) := by
    rw [getData_putData, if_neg fun hcell => hne (idx_cell_inj hk hm hm' (by omega) hn' hcell)]
  refine {
    head := ?_, tail := ?_, le := ?_, room := ?_, cells := ?_, late := ?_, data := ?_, knows := ?_ }
  · rw [hs]; exact h.head
  · rw [hs]; exact h.tail
  · rw [hs]; exact h.le
  · rw [hs]; exact h.room
  · rw [hs, htakes]
    simpa only [hfills, loadUsed_putData] using h.cells
  · rw [hs, htakes]
    simpa only [hfills] using h.late
  · rw [hs, htakes]
    intro m (hm : w.shared.taken ≤ m) hlt (hm' : m + _ < w.shared.taken + 2 ^ k) hu
    rw [loadUsed_putData] at hu
    have hne : m ≠ n := by
      rintro rfl
      rw [hclear] at hu
      cases hu
    rw [hother (by omega) hm' hne]
    exact h.data m hm hlt hm' hu
  · rw [htakes, hs]
    refine Pool.forall_threads_of_others (e := (i, ())) ht (fun j q hj hq => ?_) ?_
    · have hknows := h.knows q (List.mem_of_getElem? hq)
      cases q with
      | publish t y =>
        obtain ⟨m, hm, hm', rfl, hgetm, hd⟩ := hknows
        have hne : m ≠ n := by
          rintro rfl
          have := Pool.eq_zero_of_other (f := Access.fills (idx b m)) (by simp [Access.fills, hone])
            hj ha hq
          simp [Access.fills] at this
        exact ⟨m, hm, hm', rfl, hgetm, (hother (by omega) hm' hne).trans hd⟩
      | take t =>
        obtain ⟨m, hm, rfl, hu, hgetm⟩ := hknows
        have hpos := Pool.le_total Access.takes (List.mem_of_getElem? hq)
        simp only [Access.takes] at hpos
        refine ⟨m, hm, rfl, by rw [loadUsed_putData]; exact hu, ?_⟩
        rw [hother (by omega) (by omega) (by omega)]
        exact hgetm
      | clear t y =>
        obtain ⟨m, hm, htm, hu, hgetm⟩ := hknows
        exact ⟨m, hm, htm, by rw [loadUsed_putData]; exact hu, hgetm⟩
      | cas t => exact ⟨hknows.1, by rw [loadUsed_putData]; exact hknows.2⟩
      | outside | headLoad | load | put => exact hknows
    · exact ⟨n, hn, hn', rfl, hget, by rw [getData_putData, if_pos rfl]⟩

/-- And published by that producer. -/
theorem Window.published_step (hk : k ≤ 30) (h : Window b w) {t : BitVec 32} {x : T}
    (ha : w.threads[i]? = some (.publish t x)) (ht : w'.threads = w.threads.set i .outside)
    (hs : w'.shared = { w.shared with queue := (w.shared.queue.exchangeUsed t true).2 })
    (hc : w.total Access.takes ≤ 1) : Window b w' := by
  obtain ⟨n, hn, hn', rfl, hget, hdata⟩ := h.knows _ (List.mem_of_getElem? ha)
  have hmove (f : Access T → ℕ) (h0 : f .outside = 0) :
      w'.total f + f (.publish (idx b n) x) = w.total f := by
    have := Pool.total_step (e := (i, ())) f ha ht
    omega
  have htakes : w'.total Access.takes = w.total Access.takes := hmove Access.takes rfl
  have hmine : 0 < w.total (Access.fills (idx b n)) :=
    (Nat.lt_of_lt_of_eq Nat.one_pos (by simp [Access.fills])).trans_le
      (Pool.le_total _ (List.mem_of_getElem? ha))
  obtain ⟨hone, hclear, hlt⟩ := h.produced hn hn' hmine
  have hfills {m : ℕ} (hm : w.shared.taken ≤ m) (hm' : m ≤ w.shared.taken + 2 ^ k) :
      w'.total (Access.fills (idx b m)) + (if m = n then 1 else 0) =
        w.total (Access.fills (idx b m)) := by
    rw [← hmove (Access.fills (idx b m)) rfl, Access.fills]
    by_cases heq : m = n
    · rw [if_pos heq, heq, if_pos rfl]
    · rw [if_neg heq, if_neg fun he => heq (idx_inj hk hm hm' hn (by omega) he.symm)]
  have hused {m : ℕ} (hm : w.shared.taken ≤ m + w.total Access.takes)
      (hm' : m + w.total Access.takes < w.shared.taken + 2 ^ k) (hne : m ≠ n) :
      (w.shared.queue.exchangeUsed (idx b n) true).2.loadUsed (idx b m) =
        w.shared.queue.loadUsed (idx b m) := by
    rw [loadUsed_exchangeUsed,
      if_neg fun hcell => hne (idx_cell_inj hk hm hm' (by omega) hn' hcell)]
  have hself : (w.shared.queue.exchangeUsed (idx b n) true).2.loadUsed (idx b n) = true := by
    rw [loadUsed_exchangeUsed, if_pos rfl]
  -- a published cell stays published
  have hstays {t : BitVec 32} (hu : w.shared.queue.loadUsed t = true) :
      (w.shared.queue.exchangeUsed (idx b n) true).2.loadUsed t = true := by
    rw [loadUsed_exchangeUsed]
    split
    · rfl
    · exact hu
  refine {
    head := ?_, tail := ?_, le := ?_, room := ?_, cells := ?_, late := ?_, data := ?_, knows := ?_ }
  · rw [hs]; exact h.head
  · rw [hs]; exact h.tail
  · rw [hs]; exact h.le
  · rw [hs]; exact h.room
  · rw [hs, htakes]
    intro m (hm : w.shared.taken ≤ m) (hm' : m + _ < w.shared.taken + 2 ^ k)
    have hcell := h.cells m hm hm'
    have hf := hfills hm (by omega)
    by_cases hne : m = n
    · subst hne
      rw [if_pos rfl] at hf
      change _ = if m < w.shared.tickets.length then 1 else 0
      rw [hself, if_pos rfl, if_pos hlt]
      omega
    · rw [if_neg hne, Nat.add_zero] at hf
      rw [hused (by omega) hm' hne, hf]
      exact hcell
  · rw [hs, htakes]
    intro m (hlt : m < w.shared.tickets.length) (hm' : w.shared.taken + 2 ^ k ≤ m + _)
    have hroom := h.room
    have hf := hfills (m := m) (by omega) (by omega)
    rw [if_neg (by omega)] at hf
    exact hf.trans (h.late m hlt hm')
  · rw [hs, htakes]
    intro m (hm : w.shared.taken ≤ m) hlt (hm' : m + _ < w.shared.taken + 2 ^ k) hu
    rw [getData_exchangeUsed]
    by_cases hne : m = n
    · subst hne
      rw [hdata]
      exact hget
    · rw [hused (by omega) hm' hne] at hu
      exact h.data m hm hlt hm' hu
  · rw [htakes, hs]
    refine Pool.forall_threads (e := (i, ())) ht (fun q hq => ?_) trivial
    have hknows := h.knows q hq
    cases q with
    | publish t y =>
      obtain ⟨m, hm, hm', rfl, hgetm, hd⟩ := hknows
      exact ⟨m, hm, hm', rfl, hgetm, by rw [getData_exchangeUsed]; exact hd⟩
    | take t =>
      obtain ⟨m, hm, htm, hu, hgetm⟩ := hknows
      exact ⟨m, hm, htm, hstays hu, by rw [getData_exchangeUsed]; exact hgetm⟩
    | clear t y =>
      obtain ⟨m, hm, htm, hu, hgetm⟩ := hknows
      exact ⟨m, hm, htm, hstays hu, hgetm⟩
    | cas t => exact ⟨hknows.1, hstays hknows.2⟩
    | outside | headLoad | load | put => exact hknows

/-- `headIndex.compare_exchange_strong`, won. -/
theorem Window.won_step (h : Window b w) {t : BitVec 32}
    (ha : w.threads[i]? = some (.cas t)) (ht : w'.threads = w.threads.set i (.take t))
    (hs : w'.shared =
      { w.shared with queue := (w.shared.queue.casHead t).2, taken := w.shared.taken + 1 })
    (hone : w.total Access.drains ≤ 1) : Window b w' := by
  obtain ⟨rfl, hu⟩ := h.knows _ (List.mem_of_getElem? ha)
  rw [h.head] at hu hs
  have hpos : 0 < 2 ^ k := Nat.two_pow_pos k
  have hroom := h.room
  -- this thread is the only one inside `Dequeue`
  have hother {j : ℕ} {q : Access T} (hj : i ≠ j) (hq : w.threads[j]? = some q) : q.drains = 0 :=
    Pool.eq_zero_of_other (f := Access.drains) (by simpa [Access.drains] using hone) hj ha hq
  have hmove (f : Access T → ℕ) :
      w'.total f + f (.cas w.shared.queue.headIndex) =
        w.total f + f (.take w.shared.queue.headIndex) :=
    Pool.total_step (e := (i, ())) f ha ht
  have hzero : w.total Access.takes = 0 :=
    Pool.total_of_others ha fun j q hij hj => Nat.le_zero.1 (q.takes_le.trans (hother hij hj).le)
  have htakes : w'.total Access.takes = 1 := by
    have := hmove Access.takes
    rw [hzero] at this
    exact this
  have hfills (t : BitVec 32) : w'.total (Access.fills t) = w.total (Access.fills t) :=
    hmove (Access.fills t)
  obtain ⟨hlt, hnone⟩ := h.lt_of_used hzero hu
  have hq : (w.shared.queue.casHead (idx b w.shared.taken)).2 =
      { w.shared.queue with headIndex := idx b w.shared.taken + 1 } := by
    rw [casHead, if_pos h.head]
  have hused (t : BitVec 32) : (w.shared.queue.casHead (idx b w.shared.taken)).2.loadUsed t =
      w.shared.queue.loadUsed t := by rw [hq]; rfl
  have hget (t : BitVec 32) : (w.shared.queue.casHead (idx b w.shared.taken)).2.getData t =
      w.shared.queue.getData t := by rw [hq]; rfl
  refine {
    head := ?_, tail := ?_, le := ?_, room := ?_, cells := ?_, late := ?_, data := ?_, knows := ?_ }
  · rw [hs]
    change (w.shared.queue.casHead (idx b w.shared.taken)).2.headIndex = _
    rw [hq]
    exact ofNat_add_one _
  · rw [hs]
    change (w.shared.queue.casHead (idx b w.shared.taken)).2.tailIndex = _
    rw [hq]
    exact h.tail
  · rw [hs]; exact hlt
  · rw [hs]; change w.shared.tickets.length ≤ w.shared.taken + 1 + 2 ^ k; omega
  · rw [hs, htakes]
    intro n (hn : w.shared.taken + 1 ≤ n) (hn' : n + 1 < w.shared.taken + 1 + 2 ^ k)
    rw [hfills, hused]
    exact h.cells n (by omega) (by omega)
  · rw [hs, htakes]
    intro n (hn : n < w.shared.tickets.length) (hn' : w.shared.taken + 1 + 2 ^ k ≤ n + 1)
    omega
  · rw [hs, htakes]
    intro n (hn : w.shared.taken + 1 ≤ n) hlt' (hn' : n + 1 < w.shared.taken + 1 + 2 ^ k) hun
    rw [hused] at hun
    rw [hget]
    exact h.data n (by omega) hlt' (by omega) hun
  · rw [htakes, hs]
    refine Pool.forall_threads_of_others (e := (i, ())) ht (fun j q hj hq' => ?_) ?_
    · have hmem := List.mem_of_getElem? hq'
      have hknows := h.knows q hmem
      -- a producer's ticket is past the one at the head, which is published
      have hpast {n : ℕ} (hn : w.shared.taken ≤ n) (hf : 0 < q.fills (idx b n)) :
          w.shared.taken + 1 ≤ n := by
        rcases hn.lt_or_eq with hlt | rfl
        · exact hlt
        · have := Pool.le_total (Access.fills (idx b w.shared.taken)) hmem
          omega
      cases q with
      | load t y =>
        obtain ⟨n, hn, rfl, hgetn⟩ := hknows
        exact ⟨n, hpast hn (by simp [Access.fills]), rfl, hgetn⟩
      | put t y =>
        obtain ⟨n, hn, hn', rfl, hgetn⟩ := hknows
        refine ⟨n, hpast hn (by simp [Access.fills]), ?_, rfl, hgetn⟩
        change n + 1 < w.shared.taken + 1 + 2 ^ k
        omega
      | publish t y =>
        obtain ⟨n, hn, hn', rfl, hgetn, hd⟩ := hknows
        refine ⟨n, hpast hn (by simp [Access.fills]), ?_, rfl, hgetn, (hget _).trans hd⟩
        change n + 1 < w.shared.taken + 1 + 2 ^ k
        omega
      | outside => trivial
      | headLoad | cas | take | clear => exact absurd (hother hj hq') Nat.one_ne_zero
    · refine ⟨w.shared.taken, rfl, h.head, ?_, ?_⟩
      · rw [h.head]; exact (hused _).trans hu
      · rw [h.head]
        change w.shared.tickets[w.shared.taken]? = some (LockFreeFixedQueue.getData _ _)
        rw [hget]
        exact h.data _ le_rfl hlt (by omega) hu

/-- The consumer clears the cell it dequeued. -/
theorem Window.cleared_step (hk : k ≤ 30) (h : Window b w) {t : BitVec 32} {x : T}
    (ha : w.threads[i]? = some (.clear t x)) (ht : w'.threads = w.threads.set i .outside)
    (hs : w'.shared = { w.shared with queue := (w.shared.queue.exchangeUsed t false).2 })
    (hone : w.total Access.drains ≤ 1) : Window b w' := by
  obtain ⟨n, hn, rfl, hu, hgetn⟩ := h.knows _ (List.mem_of_getElem? ha)
  have hpos : 0 < 2 ^ k := Nat.two_pow_pos k
  have hroom := h.room
  have hother {j : ℕ} {q : Access T} (hj : i ≠ j) (hq : w.threads[j]? = some q) : q.drains = 0 :=
    Pool.eq_zero_of_other (f := Access.drains) (by simpa [Access.drains] using hone) hj ha hq
  have hmove (f : Access T → ℕ) (h0 : f .outside = 0) :
      w'.total f + f (.clear (idx b n) x) = w.total f := by
    have := Pool.total_step (e := (i, ())) f ha ht
    omega
  have hle : w.total Access.takes ≤ w.total Access.drains :=
    List.sum_le_sum fun q _ => q.takes_le
  have hcount : w.total Access.takes = 1 ∧ w'.total Access.takes = 0 := by
    have := hmove Access.takes rfl
    change w'.total Access.takes + 1 = _ at this
    omega
  obtain ⟨hc, hc'⟩ := hcount
  have hfills (t : BitVec 32) : w'.total (Access.fills t) = w.total (Access.fills t) :=
    hmove (Access.fills t) rfl
  have hused {m : ℕ} (hm : w.shared.taken ≤ m) (hm' : m + 1 < w.shared.taken + 2 ^ k) :
      (w.shared.queue.exchangeUsed (idx b n) false).2.loadUsed (idx b m) =
        w.shared.queue.loadUsed (idx b m) := by
    rw [loadUsed_exchangeUsed, if_neg fun hcell => ?_]
    have := idx_cell_inj (c := 1) (t := w.shared.taken) hk (by omega) hm' (by omega)
      (by omega) hcell
    omega
  -- the cell just cleared is the one of the ticket a lap later
  have hlap : (w.shared.queue.exchangeUsed (idx b n) false).2.loadUsed (idx b (n + 2 ^ k)) =
      false := by
    rw [loadUsed_exchangeUsed, if_pos]
    rw [idx, idx, cell_ofNat (by omega), cell_ofNat (by omega), ← Nat.add_assoc,
      Nat.add_mod_right]
  have hlast {m : ℕ} (hm : m < w.shared.taken + 2 ^ k) (hm' : ¬ m + 1 < w.shared.taken + 2 ^ k) :
      m = n + 2 ^ k := by omega
  refine {
    head := ?_, tail := ?_, le := ?_, room := ?_, cells := ?_, late := ?_, data := ?_, knows := ?_ }
  · rw [hs]; exact h.head
  · rw [hs]; exact h.tail
  · rw [hs]; exact h.le
  · rw [hs]; exact h.room
  · rw [hs, hc']
    intro m (hm : w.shared.taken ≤ m) (hm' : m < w.shared.taken + 2 ^ k)
    rw [hfills]
    by_cases hm1 : m + 1 < w.shared.taken + 2 ^ k
    · rw [hused hm hm1]
      exact h.cells m hm (by omega)
    · obtain rfl := hlast hm' hm1
      rw [hlap, if_neg Bool.false_ne_true, Nat.add_zero]
      change _ = if n + 2 ^ k < w.shared.tickets.length then 1 else 0
      split
      · exact h.late _ (by assumption) (by omega)
      · exact h.fills_eq_zero hk (by omega) (by omega)
  · rw [hs, hc']
    intro m (hm : m < w.shared.tickets.length) (hm' : w.shared.taken + 2 ^ k ≤ m + 0)
    omega
  · rw [hs, hc']
    intro m (hm : w.shared.taken ≤ m) hlt (hm' : m < w.shared.taken + 2 ^ k) hum
    rw [getData_exchangeUsed]
    by_cases hm1 : m + 1 < w.shared.taken + 2 ^ k
    · rw [hused hm hm1] at hum
      exact h.data m hm hlt (by omega) hum
    · obtain rfl := hlast hm' hm1
      rw [hlap] at hum
      cases hum
  · rw [hc', hs]
    refine Pool.forall_threads_of_others (e := (i, ())) ht (fun j q hj hq => ?_) trivial
    have hknows := h.knows q (List.mem_of_getElem? hq)
    cases q with
    | load t y => exact hknows
    | put t y =>
      obtain ⟨m, hm, hm', htm, hgetm⟩ := hknows
      exact ⟨m, hm, (Nat.lt_of_le_of_lt (Nat.le_add_right _ _) hm'), htm, hgetm⟩
    | publish t y =>
      obtain ⟨m, hm, hm', htm, hgetm, hd⟩ := hknows
      exact ⟨m, hm, (Nat.lt_of_le_of_lt (Nat.le_add_right _ _) hm'), htm, hgetm, by
        rw [getData_exchangeUsed]; exact hd⟩
    | outside => trivial
    | headLoad | cas | take | clear => exact absurd (hother hj hq) Nat.one_ne_zero

/-- **Every access keeps the window**, as long as one thread at a time is
inside `Dequeue`. -/
theorem Window.step (hk : k ≤ 30) (h : Window b w) (ha : w.threads[i]? = some a)
    (ht : w'.threads = w.threads.set i a') (hs : AccessStep w.shared a w'.shared a')
    (hone : w.total Access.drains ≤ 1) : Window b w' := by
  have hc : w.total Access.takes ≤ 1 :=
    (List.sum_le_sum fun q _ => q.takes_le).trans hone
  generalize hsh : w'.shared = s' at hs
  have hmem := List.mem_of_getElem? ha
  cases hs with
  | quiet => exact h.same_step ha ht hsh (fun _ => rfl) rfl trivial
  | ticket x hroom => exact h.ticket_step hk ha ht hsh hc hroom
  | vacant hu =>
    refine h.same_step ha ht hsh (fun _ => rfl) rfl ?_
    obtain ⟨n, hn, rfl, hget⟩ := h.knows _ hmem
    refine ⟨n, hn, ?_, rfl, hget⟩
    -- the one ticket that is too late shares its cell with the one dequeued
    by_contra hlate
    obtain ⟨hlt, -⟩ := List.getElem?_eq_some_iff.1 hget
    have := h.room
    obtain ⟨m, hm, hum⟩ := h.uncleared (by omega)
    have hcell : cell (2 ^ k) (idx b n) = cell (2 ^ k) (idx b m) := by
      rw [show n = m + 2 ^ k by omega, idx, idx, cell_ofNat (by omega), cell_ofNat (by omega),
        ← Nat.add_assoc, Nat.add_mod_right]
    rw [loadUsed_congr _ hcell, hum] at hu
    cases hu
  | stored => exact h.stored_step hk ha ht hsh hc
  | published => exact h.published_step hk ha ht hsh hc
  | readHead => exact h.same_step ha ht hsh (fun _ => rfl) rfl rfl
  | unused => exact h.same_step ha ht hsh (fun _ => rfl) rfl trivial
  | used hu => exact h.same_step ha ht hsh (fun _ => rfl) rfl ⟨h.knows _ hmem, hu⟩
  | lost => exact h.same_step ha ht hsh (fun _ => rfl) rfl trivial
  | won hw => exact h.won_step ha ht hsh hone
  | read =>
    obtain ⟨n, hn, ht', hu, hget⟩ := h.knows _ hmem
    exact h.same_step ha ht hsh (fun _ => rfl) rfl ⟨n, hn, ht', hu, hget⟩
  | cleared => exact h.cleared_step hk ha ht hsh hone

end Step

end LockFreeFixedQueue

end NetLib
