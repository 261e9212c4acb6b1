import NetLib.Slot.Holding
/-!
# Every buffer is in one place at a time

An `Enqueue` in progress has its cell for itself, one thread at a time has the
buffers in hand, and no batch is out when `RealSend` starts on a new one. Then
no action loses a buffer or makes two of one: what comes to a slot is there
until it is given back.
-/

namespace NetLib

namespace Slot

open Lifecycle LockFreeFixedQueue

variable {Buf : Type} {index : ℕ} {s s' : Slot Buf} {pc pc' : Pc Buf} {x : Buf}

/-! ## What a thread knows -/

/-- Of its cell. -/
def Pc.Sees (q : LockFreeFixedQueue Buf MAX_SEND_COUNT) : Pc Buf → Prop
  | .enqPut t _ _ => q.loadUsed t = false
  | .enqPublish t x _ => q.loadUsed t = false ∧ q.getData t = x
  | .deqCas _ h | .deqData _ h => q.loadUsed h = true
  | .deqClear _ h x => q.loadUsed h = true ∧ q.getData h = x
  | _ => True

def Drain.Loads (s : Slot Buf) : Drain Buf → Prop
  | .realSend _ bufs => s.dataNotSend = 0 ∧ Stored s bufs
  | .reset _ => True

/-- Of `_sendingQ`. -/
def Pc.Loads (s : Slot Buf) : Pc Buf → Prop
  | .deqHead d | .deqLoad d _ | .deqCas d _ | .deqData d _ | .deqClear d _ _ => d.Loads s
  | .realSendStore c bufs => bufs ≠ [] ∧ (Drain.realSend c bufs).Loads s
  | .wsaSend _ bufs => 0 < s.dataNotSend ∧ s.batch 0 = bufs
  | .postSendRelease _ => 0 < s.dataNotSend
  | _ => True

/-- Does the thread have the batch, or is it making one? -/
def Pc.turn : Pc Buf → ℕ
  | .deqHead d | .deqLoad d _ | .deqCas d _ | .deqData d _ | .deqClear d _ _ => d.owns
  | .realSendStore _ _ | .wsaSend _ _ | .postSendRelease _ => 1
  | _ => 0

/-- Is the thread the `Enqueue` at the cell? -/
def Pc.fillsCell (c : ℕ) (pc : Pc Buf) : ℕ := if pc.filling = some c then 1 else 0

/-- No two calls of `Enqueue` are at one cell, one thread or operation has the
batch, and everyone is right about what they have seen. -/
structure Kept (w : World Buf) : Prop where
  apart : ∀ c, w.total (Pc.fillsCell c) ≤ 1
  sees : ∀ pc ∈ w.threads, pc.Sees w.shared.sendQ
  loads : ∀ pc ∈ w.threads, pc.Loads w.shared
  turn : w.total Pc.turn + w.shared.sendIo ≤ 1
  flying : 0 < w.shared.sendIo →
    0 < w.shared.dataNotSend ∧ w.shared.sends.getLast? = some (w.shared.batch 0)

theorem Kept.initial [Inhabited Buf] (n : ℕ) : Kept (World.initial n : World Buf) := by
  have hidle := World.initial_idle Buf n
  refine ⟨fun c => ?_, fun pc hpc => ?_, fun pc hpc => ?_, ?_, fun h => absurd h (lt_irrefl 0)⟩
  · exact (Pool.total_of_forall_eq hidle rfl).trans_le (Nat.zero_le 1)
  · rw [hidle pc hpc]
    trivial
  · rw [hidle pc hpc]
    trivial
  · have : (World.initial n : World Buf).total Pc.turn = 0 := Pool.total_of_forall_eq hidle rfl
    rw [this]
    exact Nat.zero_le 1

/-! ## Cells -/

section Queue

variable {q q' : LockFreeFixedQueue Buf MAX_SEND_COUNT} {t : BitVec 32}

/-- What is seen of a cell depends on the cells only. -/
theorem Pc.Sees.congr (h : pc.Sees q) (hq : q'.buffer = q.buffer) : pc.Sees q' := by
  have hu (t : BitVec 32) : q'.loadUsed t = q.loadUsed t := by rw [loadUsed, loadUsed, hq]
  have hg (t : BitVec 32) : q'.getData t = q.getData t := by rw [getData, getData, hq]
  cases pc
  case enqPut t _ _ => exact (hu t).trans h
  case enqPublish t _ _ => exact ⟨(hu t).trans h.1, (hg t).trans h.2⟩
  case deqCas _ t | deqData _ t => exact (hu t).trans h
  case deqClear _ t _ => exact ⟨(hu t).trans h.1, (hg t).trans h.2⟩
  all_goals trivial

/-- A thread whose cell is not written to. -/
theorem Pc.Sees.putData (h : pc.Sees q) (hfree : q.loadUsed t = false)
    (hcell : pc.filling ≠ some (cell MAX_SEND_COUNT t)) (x : Buf) : pc.Sees (q.putData t x) := by
  cases pc
  case enqPut i _ _ => exact (loadUsed_putData q t i x).trans h
  case enqPublish i _ _ =>
    refine ⟨(loadUsed_putData q t i x).trans h.1, ?_⟩
    rw [getData_putData, if_neg fun heq => hcell (congrArg some heq)]
    exact h.2
  case deqCas _ i | deqData _ i => exact (loadUsed_putData q t i x).trans h
  case deqClear _ i _ =>
    refine ⟨(loadUsed_putData q t i x).trans h.1, ?_⟩
    rw [getData_putData, if_neg fun heq => ?_]
    · exact h.2
    · -- a published cell is not the one that is free
      have hused : q.loadUsed i = q.loadUsed t := by rw [loadUsed, loadUsed, heq]
      rw [h.1, hfree] at hused
      cases hused
  all_goals trivial

theorem Pc.Sees.publish (h : pc.Sees q) (hcell : pc.filling ≠ some (cell MAX_SEND_COUNT t)) :
    pc.Sees (q.exchangeUsed t true).2 := by
  have hkeep {i : BitVec 32} (hused : q.loadUsed i = true) :
      (q.exchangeUsed t true).2.loadUsed i = true := by
    rw [loadUsed_exchangeUsed]
    split
    · rfl
    · exact hused
  cases pc
  case enqPut i _ _ =>
    change (q.exchangeUsed t true).2.loadUsed i = false
    rw [loadUsed_exchangeUsed, if_neg fun heq => hcell (congrArg some heq)]
    exact h
  case enqPublish i _ _ =>
    refine ⟨?_, (getData_exchangeUsed ..).trans h.2⟩
    rw [loadUsed_exchangeUsed, if_neg fun heq => hcell (congrArg some heq)]
    exact h.1
  case deqCas _ i | deqData _ i => exact hkeep h
  case deqClear _ i _ => exact ⟨hkeep h.1, (getData_exchangeUsed ..).trans h.2⟩
  all_goals trivial

/-- A cell that is cleared bothers no producer. -/
theorem Pc.Sees.clear (h : pc.Sees q) (hhand : pc.hand = 0) (t : BitVec 32) :
    pc.Sees (q.exchangeUsed t false).2 := by
  have hkeep {i : BitVec 32} (hused : q.loadUsed i = false) :
      (q.exchangeUsed t false).2.loadUsed i = false := by
    rw [loadUsed_exchangeUsed]
    split
    · rfl
    · exact hused
  cases pc
  case enqPut i _ _ => exact hkeep h
  case enqPublish i _ _ => exact ⟨hkeep h.1, (getData_exchangeUsed ..).trans h.2⟩
  all_goals trivial

/-- Counting over a range, with one place changed. -/
theorem countP_range_update (p p' : ℕ → Bool) {c n : ℕ} (hc : c < n)
    (hsame : ∀ j, j ≠ c → p' j = p j) :
    (List.range n).countP p' + (if p c then 1 else 0) =
      (List.range n).countP p + (if p' c then 1 else 0) := by
  induction n with
  | zero => exact absurd hc (Nat.not_lt_zero c)
  | succ n ih =>
    rw [List.range_succ, List.countP_append, List.countP_append, List.countP_singleton,
      List.countP_singleton]
    rcases Nat.lt_succ_iff_lt_or_eq.1 hc with hlt | rfl
    · have := ih hlt
      rw [hsame n (by omega)]
      omega
    · have hcongr : (List.range c).countP p' = (List.range c).countP p :=
        List.countP_congr fun j hj => by rw [hsame j (List.mem_range.1 hj).ne]
      omega

variable [DecidableEq Buf]

/-- How often a buffer is in the cells. -/
theorem count_contents (q : LockFreeFixedQueue Buf MAX_SEND_COUNT) (x : Buf) :
    (contents q).count x = (List.range MAX_SEND_COUNT).countP fun c =>
      (q.buffer c).isUsed && (q.buffer c).data == x := by
  rw [contents, List.count, List.countP_map, List.countP_filter]
  refine List.countP_congr fun c _ => ?_
  simp [and_comm]

theorem cell_lt (t : BitVec 32) : cell MAX_SEND_COUNT t < MAX_SEND_COUNT := by
  rw [cell, BitVec.toNat_and]
  exact Nat.lt_of_le_of_lt Nat.and_le_right (by decide)

theorem count_congr (hq : q'.buffer = q.buffer) : (contents q').count x = (contents q).count x := by
  rw [contents, contents, hq]

/-- Writing to a cell that is not published changes nothing. -/
theorem count_putData (hfree : q.loadUsed t = false) (y : Buf) :
    (contents (q.putData t y)).count x = (contents q).count x := by
  rw [count_contents, count_contents]
  refine List.countP_congr fun c _ => ?_
  simp only [LockFreeFixedQueue.putData, setCell]
  by_cases hc : c = cell MAX_SEND_COUNT t
  · rw [loadUsed] at hfree
    rw [hc, Function.update_self]
    simp [hfree]
  · rw [Function.update_of_ne hc]

/-- A cell changes hands. -/
theorem count_exchangeUsed {u : Bool} (hu : q.loadUsed t = !u) :
    (contents (q.exchangeUsed t u).2).count x + (if u then 0 else [q.getData t].count x) =
      (contents q).count x + if u then [q.getData t].count x else 0 := by
  rw [count_contents, count_contents]
  have hcount := countP_range_update (fun c => (q.buffer c).isUsed && (q.buffer c).data == x)
    (fun c => ((q.exchangeUsed t u).2.buffer c).isUsed &&
      ((q.exchangeUsed t u).2.buffer c).data == x) (cell_lt t) fun j hj => by
        simp only [exchangeUsed, setCell]
        rw [Function.update_of_ne hj]
  rw [loadUsed] at hu
  have hnew : (q.exchangeUsed t u).2.buffer (cell MAX_SEND_COUNT t) =
      { q.buffer (cell MAX_SEND_COUNT t) with isUsed := u } := Function.update_self ..
  rw [hnew, hu] at hcount
  rw [List.count_singleton, getData]
  cases u <;> simpa using hcount

end Queue

/-! ## One thread has the buffers -/

section Step

variable {w w' : World Buf} {e : ℕ × Event Buf}

theorem Pc.hand_le_turn (pc : Pc Buf) : pc.hand ≤ pc.turn + pc.closed := by
  have hd (d : Drain Buf) : 1 ≤ d.owns + d.closed := by
    cases d
    · exact le_rfl
    · exact le_rfl
  cases pc
  case deqHead d | deqLoad d _ | deqCas d _ | deqData d _ | deqClear d _ _ => exact hd d
  case realSendStore | wsaSend | postSendRelease => exact le_rfl
  all_goals exact Nat.zero_le _

/-- **One thread at a time has the buffers in hand**, on the open slot by its
turn, on the closed one by itself. -/
theorem Kept.hand_le_one (h : Kept w) (hc : Counted RELEASE_FLAG (life w)) :
    w.total Pc.hand ≤ 1 := by
  have hsum (f g k : Pc Buf → ℕ) (hle : ∀ pc, f pc ≤ g pc + k pc) :
      w.total f ≤ w.total g + w.total k := by
    simp only [Pool.total, ← List.sum_map_add]
    exact List.sum_le_sum fun pc _ => hle pc
  have hturn := hsum Pc.hand Pc.turn Pc.closed Pc.hand_le_turn
  have hpinned := hsum Pc.hand Pc.pinned Pc.closed fun pc => pc.hand_le.2
  have hone := h.turn
  have hpin := hc.pinned
  have hle := hc.one
  simp only [life] at hpin hle
  omega

/-- While a thread works on the closed slot, no other one has buffers, and
none are being sent. -/
theorem Sound.hand_of_closed (h : Sound index w) {i j : ℕ} {p q : Pc Buf} (hij : i ≠ j)
    (hi : w.threads[i]? = some p) (hj : w.threads[j]? = some q) (hp : p.closed = 1) :
    q.hand = 0 := by
  have := h.alone_of_closed hij hi hj hp
  have := q.hand_le.2
  omega

theorem Sound.sendIo_of_closed (h : Sound index w) (hmem : pc ∈ w.threads) (hp : pc.closed = 1) :
    w.shared.sendIo = 0 := by
  have := Pool.le_total Pc.closed hmem
  have hpin := h.counted.pinned
  simp only [life, io] at hpin
  omega

/-- The turns after a step, and what is being sent. -/
theorem Kept.sendIo_of_turn (h : Kept w) (hmem : pc ∈ w.threads) (hp : pc.turn = 1) :
    w.shared.sendIo = 0 := by
  have := Pool.le_total Pc.turn hmem
  have := h.turn
  omega

theorem Pc.released_of_hand (h : pc.hand = 0) : pc.released = 0 := by
  cases pc <;> first | rfl | cases h

theorem Pc.loads_of_hand (h : pc.hand = 0) : pc.Loads s := by
  cases pc <;> trivial

/-- With one thread at work, the released entries are its own. -/
theorem released_eq {i : ℕ} (hi : w.threads[i]? = some pc)
    (hothers : ∀ j q, i ≠ j → w.threads[j]? = some q → q.hand = 0) :
    w.total Pc.released = pc.released :=
  Pool.total_of_others hi fun j q hij hj => Pc.released_of_hand (hothers j q hij hj)

/-- Without the buffers, a thread sees a cell only as a producer. -/
theorem Pc.Sees.of_filling {q : LockFreeFixedQueue Buf MAX_SEND_COUNT} (hhand : pc.hand = 0)
    (hfill : pc.filling = none) : pc.Sees q := by
  cases pc <;> trivial

theorem Pc.of_bare (h : pc.bare = true) :
    pc.hand = 0 ∧ pc.turn = 0 ∧ pc.filling = none ∧ pc.carries = [] := by
  cases pc <;> first | exact ⟨rfl, rfl, rfl, rfl⟩ | cases h

@[simp] theorem Drain.empty_turn (d : Drain Buf) : d.empty.turn = d.owns := by
  rcases d with ⟨_, _ | _⟩ | _
  · rfl
  · rfl
  · rfl

@[simp] theorem Drain.empty_filling (d : Drain Buf) : d.empty.filling = none := by
  rcases d with ⟨_, _ | _⟩ | _
  · rfl
  · rfl
  · rfl

@[simp] theorem Drain.empty_carries (d : Drain Buf) : d.empty.carries = d.bufs := by
  rcases d with ⟨_, _ | _⟩ | _
  · rfl
  · rfl
  · rfl

@[simp] theorem Drain.empty_released (d : Drain Buf) : d.empty.released = 0 := by
  rcases d with ⟨_, _ | _⟩ | _
  · rfl
  · rfl
  · rfl

/-- What is loaded depends on `_sendingQ` only. -/
theorem Pc.Loads.congr (h : pc.Loads s) (hdata : s'.dataNotSend = s.dataNotSend)
    (hsending : s'.sendingQ = s.sendingQ) : pc.Loads s' := by
  have hbatch : s'.batch 0 = s.batch 0 := by rw [batch, batch, hdata, hsending]
  have hd {d : Drain Buf} (h : d.Loads s) : d.Loads s' := by
    cases d with
    | realSend c bufs =>
      refine ⟨hdata.trans h.1, ?_⟩
      unfold Stored
      rw [hsending]
      exact h.2
    | reset r => trivial
  cases pc
  case deqHead d | deqLoad d _ | deqCas d _ | deqData d _ | deqClear d _ _ => exact hd h
  case realSendStore c bufs => exact ⟨h.1, hd (d := .realSend c bufs) h.2⟩
  case wsaSend => exact ⟨hdata ▸ h.1, hbatch.trans h.2⟩
  case postSendRelease =>
    have : 0 < s.dataNotSend := h
    exact this.trans_eq hdata.symm
  all_goals trivial

/-! ## A step -/

/-- The start of a batch: nothing is out, and nobody is at it. -/
theorem Kept.turn_of_proper (h : Kept w) (hproper : Proper w pc) (hbegins : pc.begins = true) :
    w.total Pc.turn = 0 ∧ w.shared.sendIo = 0 := by
  obtain ⟨hdata, hloading⟩ := hproper.2 hbegins
  constructor
  · refine Pool.total_eq_zero fun q hq => ?_
    have hl := h.loads q hq
    have hn := hloading q hq
    have hd {d : Drain Buf} (hn : (d.owns == 1) = false) : d.owns = 0 := by
      cases d with
      | realSend => cases hn
      | reset => rfl
    cases q
    case deqHead d | deqLoad d _ | deqCas d _ | deqData d _ | deqClear d _ _ => exact hd hn
    case realSendStore => cases hn
    case wsaSend =>
      have := hl.1
      omega
    case postSendRelease =>
      have : 0 < w.shared.dataNotSend := hl
      omega
    all_goals rfl
  · by_contra hio
    have := (h.flying (Nat.pos_of_ne_zero hio)).1
    omega

/-- **The other threads have no buffers** while the thread that moves has
some, takes the batch of a send that completed, or starts on a new one, or
works on the closed slot. -/
theorem Kept.others_hand (h : Kept w) (hs : Sound index w) (hpc : w.threads[e.1]? = some pc)
    (hmove : pc.hand = 1 ∨ pc.closed = 1 ∨ w.total Pc.turn = 0 ∧ 0 < w.shared.io + pc.pinned)
    {j : ℕ} {q : Pc Buf} (hj : e.1 ≠ j) (hq : w.threads[j]? = some q) : q.hand = 0 := by
  rcases hmove with hp | hp | ⟨hturn, hpin⟩
  · exact Pool.eq_zero_of_other (f := Pc.hand) ((h.hand_le_one hs.counted).trans hp.ge) hj hpc hq
  · exact hs.hand_of_closed hj hpc hq hp
  · have hmem := List.mem_of_getElem? hq
    have hclosed := hs.counted.pinned
    have hpinned := Pool.le_total Pc.pinned (List.mem_of_getElem? hpc)
    simp only [life] at hclosed
    have hzero := Pool.eq_zero_of_total (f := Pc.closed) (by omega) hmem
    have := Pool.eq_zero_of_total hturn hmem
    have := q.hand_le_turn
    omega

/-- No other `Enqueue` is at the cell. -/
theorem Kept.others_filling (h : Kept w) (hpc : w.threads[e.1]? = some pc) {c : ℕ}
    (hfill : pc.filling = some c) {j : ℕ} {q : Pc Buf} (hj : e.1 ≠ j)
    (hq : w.threads[j]? = some q) : q.filling ≠ some c := by
  intro hqc
  have hone := h.apart c
  have hp : pc.fillsCell c = 1 := if_pos hfill
  have hzero := Pool.eq_zero_of_other (f := Pc.fillsCell c) (by omega) hj hpc hq
  have : q.fillsCell c = 1 := if_pos hqc
  omega

/-- What an action does with its cell. -/
theorem Moves.filling (h : Moves s pc s' pc') :
    pc'.filling = none ∨ pc'.filling = pc.filling ∨
      pc.draws = true ∧ pc'.filling = some (cell MAX_SEND_COUNT s.sendQ.tailIndex) := by
  cases h with
  | aside _ _ hpc' => exact .inl (Pc.of_bare hpc').2.2.1
  | ticket => exact .inr (.inr ⟨rfl, rfl⟩)
  | vacant | put => exact .inr (.inl rfl)
  | unused d => exact .inl d.empty_filling
  | stored _ _ _ _ _ hpc' => rcases hpc' with rfl | rfl <;> exact .inl rfl
  | send _ _ _ _ _ hpc' | cleared _ _ hpc' => exact .inl (Pc.of_bare hpc').2.2.1
  | _ => exact .inl rfl

theorem Kept.apart_step (h : Kept w) (hpc : w.threads[e.1]? = some pc)
    (ht : w'.threads = w.threads.set e.1 pc') (hproper : Proper w pc)
    (hm : Moves w.shared pc w'.shared pc') (c : ℕ) : w'.total (Pc.fillsCell c) ≤ 1 := by
  have hmove := Pool.total_step (Pc.fillsCell c) hpc ht
  have hone := h.apart c
  have hle (q : Pc Buf) : q.fillsCell c ≤ 1 := by
    rw [Pc.fillsCell]
    split <;> omega
  rcases hm.filling with hnone | hsame | ⟨hdraws, hnew⟩
  · have : pc'.fillsCell c = 0 := if_neg (by simp [hnone])
    omega
  · have : pc'.fillsCell c = pc.fillsCell c := by rw [Pc.fillsCell, hsame, Pc.fillsCell]
    omega
  · by_cases hc : pc'.filling = some c
    · -- nobody has a ticket for the cell
      have hzero : w.total (Pc.fillsCell c) = 0 := Pool.total_eq_zero fun q hq =>
        if_neg fun hqc => hproper.1 hdraws q hq (hqc.trans (hc.symm.trans hnew))
      have := hle pc'
      omega
    · have : pc'.fillsCell c = 0 := if_neg hc
      omega

theorem Kept.sees_step (h : Kept w) (hs : Sound index w) (hpc : w.threads[e.1]? = some pc)
    (ht : w'.threads = w.threads.set e.1 pc') (hm : Moves w.shared pc w'.shared pc') :
    ∀ q ∈ w'.threads, q.Sees w'.shared.sendQ := by
  have hsees := h.sees pc (List.mem_of_getElem? hpc)
  have hcongr (hq : w'.shared.sendQ.buffer = w.shared.sendQ.buffer) (j : ℕ) (q : Pc Buf)
      (_ : e.1 ≠ j) (hj : w.threads[j]? = some q) : q.Sees w'.shared.sendQ :=
    (h.sees q (List.mem_of_getElem? hj)).congr hq
  have hothers {j : ℕ} {q : Pc Buf} (hhand : pc.hand = 1) (hne : e.1 ≠ j)
      (hj : w.threads[j]? = some q) : q.hand = 0 :=
    h.others_hand hs hpc (.inl hhand) hne hj
  have hfilling {c j : ℕ} {q : Pc Buf} (hfill : pc.filling = some c) (hne : e.1 ≠ j)
      (hj : w.threads[j]? = some q) : q.filling ≠ some c :=
    h.others_filling hpc hfill hne hj
  have hkeep {j : ℕ} {q : Pc Buf} (hj : w.threads[j]? = some q) : q.Sees w.shared.sendQ :=
    h.sees q (List.mem_of_getElem? hj)
  generalize w.shared = s at *
  generalize w'.shared = s' at *
  cases hm with
  | aside _ _ hpc' hqueue =>
    have hbare := Pc.of_bare hpc'
    exact Pool.forall_threads_of_others ht (hcongr (by rw [hqueue]))
      (.of_filling hbare.1 hbare.2.2.1)
  | ticket => exact Pool.forall_threads_of_others ht (hcongr rfl) trivial
  | vacant t x c hu => exact Pool.forall_threads_of_others ht (hcongr rfl) hu
  | put t x c =>
    refine Pool.forall_threads_of_others ht (fun j q hne hj => ?_) ?_
    · exact (hkeep hj).putData hsees (hfilling rfl hne hj) x
    · refine ⟨(loadUsed_putData ..).trans hsees, ?_⟩
      rw [getData_putData, if_pos rfl]
  | publish t x c =>
    exact Pool.forall_threads_of_others ht
      (fun j q hne hj => (hkeep hj).publish (hfilling rfl hne hj)) trivial
  | found d head hu => exact Pool.forall_threads_of_others ht (hcongr rfl) hu
  | unused d head =>
    refine Pool.forall_threads_of_others ht (hcongr rfl) ?_
    rcases d with ⟨c, _ | _⟩ | r <;> trivial
  | won d head q hq =>
    have hnew : (Pc.deqData d head).Sees s.sendQ := hsees
    exact Pool.forall_threads_of_others ht (hcongr hq) (hnew.congr hq)
  | read d head => exact Pool.forall_threads_of_others ht (hcongr rfl) ⟨hsees, rfl⟩
  | stored c bufs head x pc' hpc' =>
    refine Pool.forall_threads_of_others ht (fun j q hne hj => ?_) ?_
    · exact (hkeep hj).clear (hothers rfl hne hj) head
    · rcases hpc' with rfl | rfl <;> trivial
  | dropped r head x =>
    exact Pool.forall_threads_of_others ht
      (fun j q hne hj => (hkeep hj).clear (hothers rfl hne hj) head) trivial
  | send _ _ _ _ _ hpc' | cleared _ _ hpc' =>
    have hbare := Pc.of_bare hpc'
    exact Pool.forall_threads_of_others ht (hcongr rfl) (.of_filling hbare.1 hbare.2.2.1)
  | _ => exact Pool.forall_threads_of_others ht (hcongr rfl) trivial

/-- What the thread itself has loaded after its action. -/
theorem Moves.loads (h : Moves s pc s' pc') (hl : pc.Loads s)
    (hbegin : pc.begins = true → s.dataNotSend = 0)
    (hflying : 0 < s.sendIo → 0 < s.dataNotSend) : pc'.Loads s' := by
  cases h with
  | aside _ _ hpc' => exact Pc.loads_of_hand (Pc.of_bare hpc').1
  | send _ _ _ _ _ hpc' | cleared _ _ hpc' => exact Pc.loads_of_hand (Pc.of_bare hpc').1
  | begin c head => exact ⟨hbegin rfl, fun j hj => absurd hj (Nat.not_lt_zero j)⟩
  | look d | found d | lost d | read d => exact hl
  | unused d =>
    rcases d with ⟨c, _ | ⟨x, bufs⟩⟩ | r
    · exact hl
    · exact ⟨List.cons_ne_nil x bufs, hl⟩
    · trivial
  | won d head q hq =>
    cases d with
    | realSend c bufs => exact hl
    | reset r => trivial
  | stored c bufs head x pc' hpc' =>
    have hnew : Stored { s with sendingQ := Function.update s.sendingQ bufs.length (some x) }
        (bufs ++ [x]) := by
      intro j hj
      rw [List.length_append, List.length_singleton] at hj
      by_cases hlt : j < bufs.length
      · rw [List.getElem?_append_left hlt]
        exact (Function.update_of_ne hlt.ne _ _).trans (hl.2 j hlt)
      · obtain rfl : j = bufs.length := by omega
        rw [List.getElem?_concat_length]
        exact Function.update_self ..
    rcases hpc' with rfl | rfl
    · exact ⟨by simp, hl.1, hnew⟩
    · exact ⟨hl.1, hnew⟩
  | store c bufs => exact ⟨List.length_pos_iff.2 hl.1, batch_of_stored hl.2.2⟩
  | done hpos => exact hflying hpos
  | free => exact hl
  | _ => trivial

theorem Kept.loads_step (h : Kept w) (hs : Sound index w) (hpc : w.threads[e.1]? = some pc)
    (ht : w'.threads = w.threads.set e.1 pc') (hproper : Proper w pc)
    (hm : Moves w.shared pc w'.shared pc') : ∀ q ∈ w'.threads, q.Loads w'.shared := by
  have hnew : pc'.Loads w'.shared := hm.loads (h.loads pc (List.mem_of_getElem? hpc))
    (fun hb => (hproper.2 hb).1) fun hio => (h.flying hio).1
  refine Pool.forall_threads_of_others ht (fun j q hne hj => ?_) hnew
  have hothers (hmove : pc.hand = 1 ∨ pc.closed = 1 ∨
      w.total Pc.turn = 0 ∧ 0 < w.shared.io + pc.pinned) : q.Loads w'.shared :=
    Pc.loads_of_hand (h.others_hand hs hpc hmove hne hj)
  have hq := h.loads q (List.mem_of_getElem? hj)
  have hbegin := h.turn_of_proper hproper
  have hturn := h.turn
  generalize w.shared = s at *
  generalize w'.shared = s' at *
  cases hm with
  | aside _ _ _ _ hdata hsending => exact hq.congr hdata hsending
  | ticket | vacant | refused | put | publish => exact hq.congr rfl rfl
  | begin c head => exact hq.congr rfl rfl
  | reset | cleared => exact hothers (.inr (.inl rfl))
  | done hpos =>
    refine hothers (.inr (.inr ⟨by omega, ?_⟩))
    rw [io]
    omega
  | _ => exact hothers (.inl rfl)

theorem Kept.turn_step (h : Kept w) (hpc : w.threads[e.1]? = some pc)
    (ht : w'.threads = w.threads.set e.1 pc') (hproper : Proper w pc)
    (hm : Moves w.shared pc w'.shared pc') : w'.total Pc.turn + w'.shared.sendIo ≤ 1 := by
  have hmove := Pool.total_step Pc.turn hpc ht
  have hturn := h.turn
  have hbegin := h.turn_of_proper hproper
  have hd (d : Drain Buf) : d.owns ≤ 1 := by cases d <;> simp [Drain.owns]
  generalize w.shared = s at *
  generalize w'.shared = s' at *
  cases hm with
  | aside hpc _ hpc' _ _ _ _ _ hio =>
    rw [(Pc.of_bare hpc).2.1, (Pc.of_bare hpc').2.1] at hmove
    omega
  | begin c head =>
    obtain ⟨hzero, hio⟩ := hbegin rfl
    have : (Pc.deqHead (.realSend c []) : Pc Buf).turn = 1 := rfl
    have := hd (.realSend c [])
    omega
  | unused d head =>
    rw [d.empty_turn] at hmove
    have : (Pc.deqLoad d head).turn = d.owns := rfl
    change _ + s.sendIo ≤ 1
    omega
  | stored c bufs head x pc' hpc' =>
    have : pc'.turn = 1 := by rcases hpc' with rfl | rfl <;> rfl
    have : (Pc.deqClear (.realSend c bufs) head x).turn = 1 := rfl
    change _ + s.sendIo ≤ 1
    omega
  | send c bufs io ready pc' hpc' hio =>
    rw [(Pc.of_bare hpc').2.1] at hmove
    have : (Pc.wsaSend c bufs).turn = 1 := rfl
    change _ + io ≤ 1
    omega
  | cleared r pc' hpc' =>
    rw [(Pc.of_bare hpc').2.1] at hmove
    change _ + s.sendIo ≤ 1
    omega
  | done hpos =>
    have : (Pc.idle : Pc Buf).turn = 0 := rfl
    have : (Pc.postSendRelease 0 : Pc Buf).turn = 1 := rfl
    change _ + (s.sendIo - 1) ≤ 1
    omega
  | _ =>
    simp only [Pc.turn, Drain.owns] at hmove
    change _ + s.sendIo ≤ 1
    omega

theorem Kept.flying_step (h : Kept w) (hs : Sound index w) (hpc : w.threads[e.1]? = some pc)
    (hm : Moves w.shared pc w'.shared pc') (hio : 0 < w'.shared.sendIo) :
    0 < w'.shared.dataNotSend ∧ w'.shared.sends.getLast? = some (w'.shared.batch 0) := by
  have hmem := List.mem_of_getElem? hpc
  have hmine : pc.turn = 1 → w.shared.sendIo = 0 := h.sendIo_of_turn hmem
  have hclosed : pc.closed = 1 → w.shared.sendIo = 0 := hs.sendIo_of_closed hmem
  have hloads := h.loads pc hmem
  have hflying := h.flying
  have hturn := h.turn
  generalize w.shared = s at *
  generalize w'.shared = s' at *
  cases hm with
  | aside _ _ _ _ hdata hsending _ hsends hle =>
    rw [batch, hdata, hsending, hsends]
    exact hflying (hio.trans_le hle)
  | store | stored | free | freed => exact absurd hio (hmine rfl).not_gt
  | reset | dropped | cleared => exact absurd hio (hclosed rfl).not_gt
  | send c bufs =>
    refine ⟨hloads.1, ?_⟩
    rw [List.getLast?_append_of_ne_nil _ (List.cons_ne_nil _ _)]
    exact congrArg some hloads.2.symm
  | done hpos =>
    change 0 < s.sendIo - 1 at hio
    omega
  | _ => exact hflying hio

/-- **Every step keeps it.** -/
theorem Kept.step (h : Kept w) (hs : Sound index w) (hpc : w.threads[e.1]? = some pc)
    (ht : w'.threads = w.threads.set e.1 pc') (hproper : Proper w pc)
    (hm : Moves w.shared pc w'.shared pc') : Kept w' where
  apart := h.apart_step hpc ht hproper hm
  sees := h.sees_step hs hpc ht hm
  loads := h.loads_step hs hpc ht hproper hm
  turn := h.turn_step hpc ht hproper hm
  flying := h.flying_step hs hpc hm

/-! ## Nothing is lost, nothing is doubled -/

theorem refuses_of_bare (h : pc.bare = true) : s.refuses pc = [] := by
  cases pc <;> first | rfl | cases h

theorem Pc.released_of_bare (h : pc.bare = true) : pc.released = 0 :=
  Pc.released_of_hand (Pc.of_bare h).1

/-- What is given where nothing is refused. -/
theorem gives_of_append (hrefuses : s.refuses pc = []) {l : List Buf}
    (hfreed : s'.freed = s.freed ++ l) : s.gives pc s' = l := by
  rw [gives, hrefuses, hfreed, List.drop_left, List.nil_append]

theorem gives_of_eq (hrefuses : s.refuses pc = []) (hfreed : s'.freed = s.freed) :
    s.gives pc s' = [] :=
  gives_of_append hrefuses (hfreed.trans (List.append_nil _).symm)

variable [DecidableEq Buf]

/-- **The references over a step**: what the thread brings is added, what it
has to release is taken away. -/
theorem Kept.references_step (h : Kept w) (hs : Sound index w) (hpc : w.threads[e.1]? = some pc)
    (ht : w'.threads = w.threads.set e.1 pc') (hm : Moves w.shared pc w'.shared pc') (x : Buf) :
    references w' x + (w.shared.gives pc w'.shared).count x =
      references w x + pc.brings.count x := by
  have hmem := List.mem_of_getElem? hpc
  have hcarries := Pool.total_step (fun q => q.carries.count x) hpc ht
  have hreleased := Pool.total_step Pc.released hpc ht
  have halone (hmove : pc.hand = 1 ∨ pc.closed = 1) : w.total Pc.released = pc.released :=
    released_eq hpc fun j q hj hq => h.others_hand hs hpc (hmove.imp_right .inl) hj hq
  have hsees := h.sees pc hmem
  have hloads := h.loads pc hmem
  simp only [references]
  generalize w.total (fun q => q.carries.count x) = held at *
  generalize w'.total (fun q => q.carries.count x) = held' at *
  generalize w.shared = s at *
  generalize w'.shared = s' at *
  -- the batch of a thread that is at no entry of it
  have hkeep (hp : pc.released = 0) (hp' : pc'.released = 0)
      (hdata : s'.dataNotSend = s.dataNotSend) (hsending : s'.sendingQ = s.sendingQ) :
      s'.batch (w'.total Pc.released) = s.batch (w.total Pc.released) := by
    rw [hp, hp'] at hreleased
    rw [batch, batch, hdata, hsending, show w'.total Pc.released = w.total Pc.released by omega]
  have hempty (hzero : s'.dataNotSend = 0) : s'.batch (w'.total Pc.released) = [] :=
    batch_of_zero hzero _
  have hnone (hrefuses : s.refuses pc = []) (hfreed : s'.freed = s.freed) : s.gives pc s' = [] :=
    gives_of_eq hrefuses hfreed
  have hgives {l : List Buf} (hrefuses : s.refuses pc = []) (hfreed : s'.freed = s.freed ++ l) :
      s.gives pc s' = l :=
    gives_of_append hrefuses hfreed
  cases hm with
  | aside hbare hbrings hbare' hqueue hdata hsending hfreed =>
    rw [hkeep (Pc.released_of_bare hbare) (Pc.released_of_bare hbare') hdata hsending, hqueue,
      hnone (refuses_of_bare hbare) hfreed, hbrings]
    rw [(Pc.of_bare hbare).2.2.2, (Pc.of_bare hbare').2.2.2] at hcarries
    omega
  | ticket y c =>
    rw [hkeep rfl rfl rfl rfl, hnone rfl rfl]
    simp only [Pc.carries, Pc.brings, List.count_nil] at hcarries ⊢
    change (contents s.sendQ).count x + _ + _ + 0 = _
    omega
  | vacant t y c hu =>
    rw [hkeep rfl rfl rfl rfl, hnone (if_neg (by simp [hu])) rfl]
    simp only [Pc.carries, Pc.brings, List.count_nil] at hcarries ⊢
    omega
  | refused t y c hu =>
    have hrefuses : s.gives (.enqLoad t y c) s = [y] := by
      rw [gives, refuses, if_pos hu, List.drop_length, List.append_nil]
    rw [hkeep rfl rfl rfl rfl, hrefuses]
    simp only [Pc.carries, Pc.brings, List.count_nil] at hcarries ⊢
    omega
  | put t y c =>
    rw [hkeep rfl rfl rfl rfl, hnone rfl rfl, count_putData hsees y]
    simp only [Pc.carries, Pc.brings, List.count_nil] at hcarries ⊢
    omega
  | publish t y c =>
    have hcount := count_exchangeUsed (x := x) (u := true) hsees.1
    rw [hkeep rfl rfl rfl rfl, hnone rfl rfl]
    rw [hsees.2] at hcount
    simp only [Pc.carries, Pc.brings, List.count_nil, if_true] at hcarries hcount ⊢
    omega
  | won d head q hq =>
    rw [hkeep rfl rfl rfl rfl, hnone rfl rfl, count_congr hq]
    simp only [Pc.carries, Pc.brings, List.count_nil] at hcarries ⊢
    omega
  | unused d head =>
    rw [hkeep rfl d.empty_released rfl rfl, hnone rfl rfl]
    rw [d.empty_carries] at hcarries
    simp only [Pc.carries, Pc.brings, List.count_nil] at hcarries ⊢
    omega
  | stored c bufs head y pc' hpc' =>
    have hbufs : pc'.carries = bufs ++ [y] := by rcases hpc' with rfl | rfl <;> rfl
    have hcount := count_exchangeUsed (x := x) (u := false) hsees.1
    have hzero : s.dataNotSend = 0 := hloads.1
    rw [hempty hzero, batch_of_zero hzero, hnone rfl rfl]
    rw [hsees.2] at hcount
    rw [hbufs] at hcarries
    simp only [Pc.carries, Drain.bufs, Pc.brings, List.count_append, List.count_nil,
      Bool.false_eq_true, if_false] at hcarries hcount ⊢
    omega
  | dropped r head y =>
    have hcount := count_exchangeUsed (x := x) (u := false) hsees.1
    rw [hkeep rfl rfl rfl rfl, hgives rfl rfl]
    rw [hsees.2] at hcount
    simp only [Pc.carries, Pc.brings, List.count_nil, Bool.false_eq_true, if_false]
      at hcarries hcount ⊢
    omega
  | store c bufs =>
    have hat : w.total Pc.released = 0 := halone (.inl rfl)
    have hat' : w'.total Pc.released = 0 := hreleased.trans hat
    rw [hat', batch_of_stored hloads.2.2, hnone rfl rfl, batch_of_zero hloads.2.1]
    simp only [Pc.carries, Pc.brings, List.count_nil] at hcarries ⊢
    omega
  | send c bufs io ready pc' hbare =>
    rw [hkeep rfl (Pc.released_of_bare hbare) rfl rfl, hnone rfl rfl]
    rw [(Pc.of_bare hbare).2.2.2] at hcarries
    simp only [Pc.carries, Pc.brings, List.count_nil] at hcarries ⊢
    omega
  | free i y hi hy =>
    have hat : w.total Pc.released = i := halone (.inl rfl)
    have hat' : w'.total Pc.released = i + 1 := by
      simp only [Pc.released] at hreleased
      omega
    have hbatch : ({ s with freed := s.freed ++ [y] } : Slot Buf).batch (i + 1) =
      s.batch (i + 1) := rfl
    rw [hat, hat', hgives rfl rfl, hbatch, batch_succ hi hy]
    simp only [Pc.carries, Pc.brings, List.count_nil, List.count_cons] at hcarries ⊢
    omega
  | freed i hi =>
    have hat : w.total Pc.released = i := halone (.inl rfl)
    rw [hat, batch_of_le hi, hempty rfl, hnone rfl rfl]
    simp only [Pc.carries, Pc.brings, List.count_nil] at hcarries ⊢
    omega
  | cleared r pc' hbare =>
    have hat : w.total Pc.released = 0 := halone (.inr rfl)
    have hbatch : (List.range s.dataNotSend).filterMap s.sendingQ = s.batch 0 := rfl
    rw [hat, hempty rfl, hgives rfl rfl, hbatch]
    rw [(Pc.of_bare hbare).2.2.2] at hcarries
    simp only [Pc.carries, Pc.brings, List.count_nil] at hcarries ⊢
    omega
  | begin | reset | done =>
    rw [hkeep rfl rfl rfl rfl, hnone rfl rfl]
    simp only [Pc.carries, Drain.bufs, Pc.brings, List.count_nil] at hcarries ⊢
    omega
  | look d | found d | lost d | read d =>
    rw [hkeep rfl rfl rfl rfl, hnone rfl rfl]
    simp only [Pc.carries, Pc.brings, List.count_nil] at hcarries ⊢
    omega

end Step

end Slot

end NetLib
