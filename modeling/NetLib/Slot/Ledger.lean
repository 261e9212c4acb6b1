import NetLib.Slot.Handling
/-!
# The buffers of a slot, whatever becomes of its sessions

Sends fail, are cancelled, and leave their batch in `_sendingQ` until
`Reset`; `Reset` takes what is left in `_sendQ`. Through all of that the
buffers released and the ones still held by the slot are the tickets
dequeued (`Ledger`). Nothing here depends on how a session ends.
-/

namespace NetLib

namespace Slot

open Lifecycle LockFreeFixedQueue

variable {Buf : Type} {index b : ℕ} {s s' : Slot Buf} {pc pc' : Pc Buf}

/-! ## The books over a step -/

theorem Pc.books_of_hand (h : pc.hand = 0) : pc.books s = Accounts s (s.batch 0) 0 := by
  cases pc <;> first | rfl | cases h

/-- The books do not change where nothing is dequeued, released or stored. -/
theorem Accounts.congr {out : List Buf} {t : ℕ} (h : Accounts s out t)
    (hfreed : s'.freed = s.freed) (htaken : s'.taken = s.taken)
    (htickets : s'.tickets = s.tickets ∨ ∃ x, s'.tickets = s.tickets ++ [x])
    (hle : s.taken ≤ s.tickets.length) : Accounts s' out t := by
  unfold Accounts at h ⊢
  rw [hfreed, htaken]
  rcases htickets with heq | ⟨x, heq⟩
  · rwa [heq]
  · rwa [heq, List.take_append_of_le_length (by omega)]

theorem Pc.books.congr (h : pc.books s) (hfreed : s'.freed = s.freed)
    (hdata : s'.dataNotSend = s.dataNotSend) (hsending : s'.sendingQ = s.sendingQ)
    (htaken : s'.taken = s.taken)
    (htickets : s'.tickets = s.tickets ∨ ∃ x, s'.tickets = s.tickets ++ [x])
    (hle : s.taken ≤ s.tickets.length) : pc.books s' := by
  have hbatch (i : ℕ) : s'.batch i = s.batch i := by simp only [batch, hdata, hsending]
  have hd {d : Drain Buf} {t : ℕ} (h : d.books s t) : d.books s' t := by
    cases d with
    | realSend c bufs =>
      obtain ⟨hzero, hst, hacc⟩ := h
      refine ⟨hdata.trans hzero, ?_, hacc.congr hfreed htaken htickets hle⟩
      unfold Stored
      rwa [hsending]
    | reset r =>
      change Accounts s' (s'.batch 0) t
      rw [hbatch]
      exact Accounts.congr h hfreed htaken htickets hle
  have hw (i : ℕ) (h : Accounts s (s.batch i) 0) : Accounts s' (s'.batch i) 0 := by
    rw [hbatch]
    exact h.congr hfreed htaken htickets hle
  cases pc
  case deqHead d | deqLoad d _ | deqCas d _ | deqData d _ | deqClear d _ _ => exact hd h
  case realSendStore c bufs => exact hd (d := .realSend c bufs) h
  case postSendRelease i => exact hw i h
  all_goals exact hw 0 h

theorem batch_of_zero (h : s.dataNotSend = 0) (i : ℕ) : s.batch i = [] := by
  simp [batch, h]

/-- What is stored under `dataNotSend` is the batch. -/
theorem batch_of_stored {bufs : List Buf} (h : Stored s bufs) :
    ({ s with dataNotSend := bufs.length } : Slot Buf).batch 0 = bufs := by
  have hmap : (List.range bufs.length).filterMap s.sendingQ =
      (List.range bufs.length).filterMap (bufs[·]?) :=
    List.filterMap_congr fun i hi => h i (List.mem_range.1 hi)
  change ((List.range bufs.length).drop 0).filterMap s.sendingQ = bufs
  rw [List.drop_zero, hmap]
  clear hmap h
  induction bufs with
  | nil => rfl
  | cons x bufs ih =>
    rw [List.length_cons, List.range_succ_eq_map, List.filterMap_cons, List.filterMap_map]
    simpa using ih

theorem batch_succ {i : ℕ} {x : Buf} (hi : i < s.dataNotSend) (hx : s.sendingQ i = some x) :
    s.batch i = x :: s.batch (i + 1) := by
  simp only [batch]
  rw [List.drop_eq_getElem_cons (by simpa using hi)]
  simp [hx]

theorem batch_of_le {i : ℕ} (hi : ¬i < s.dataNotSend) : s.batch i = [] := by
  simp only [batch]
  rw [List.drop_of_length_le (by simp; omega)]
  rfl

/-- **What the action of the thread that has the buffers does to the
books.** `hzero`: no batch is out when `RealSend` starts on a new one;
`hknows`: what `Dequeue` took is the ticket before the head. -/
theorem Handling.books (h : Handling s pc s' pc') (hb : pc.books s)
    (hle : s.taken ≤ s.tickets.length)
    (hzero : ∀ c head, pc = .realSendTail c head → s.dataNotSend = 0)
    (hknows : ∀ d head x, pc = .deqClear d head x → ∃ n, s.taken = n + 1 ∧ s.tickets[n]? = some x) :
    pc'.books s' := by
  cases h with
  | aside hpc hpc' hfreed hdata hsending htaken _ htickets =>
    rw [Pc.books_of_hand hpc] at hb
    rw [Pc.books_of_hand hpc']
    exact (show Pc.idle.books s from hb).congr hfreed hdata hsending htaken
      (htickets.imp_right (·.2)) hle
  | begin c head =>
    have hnil := hzero c head rfl
    refine ⟨hnil, fun j hj => absurd hj (Nat.not_lt_zero j), ?_⟩
    have : Accounts s (s.batch 0) 0 := hb
    rwa [batch_of_zero hnil] at this
  | look _ _ hbooks => exact hbooks.2 hb
  | took d head q =>
    have hsame (out : List Buf) (h : Accounts s out 0) :
        Accounts { s with sendQ := q, taken := s.taken + 1 } out 1 := h
    cases d with
    | realSend c bufs => exact ⟨hb.1, hb.2.1, hsame bufs hb.2.2⟩
    | reset r => exact hsame (s.batch 0) hb
  | stored c bufs head x q pc' hpc' =>
    obtain ⟨n, hn, hx⟩ := hknows _ _ _ rfl
    obtain ⟨hdata, hst, hacc⟩ := hb
    have hnew : (Drain.realSend c (bufs ++ [x])).books
        { s with sendQ := q, sendingQ := Function.update s.sendingQ bufs.length (some x) } 0 := by
      refine ⟨hdata, fun j hj => ?_, ?_⟩
      · rw [List.length_append, List.length_singleton] at hj
        by_cases hlt : j < bufs.length
        · rw [List.getElem?_append_left hlt]
          exact (Function.update_of_ne hlt.ne _ _).trans (hst j hlt)
        · obtain rfl : j = bufs.length := by omega
          rw [List.getElem?_concat_length]
          exact Function.update_self ..
      · change (s.freed ++ (bufs ++ [x])).Perm (s.tickets.take s.taken)
        have hacc' : (s.freed ++ bufs).Perm (s.tickets.take n) := by
          have : (s.freed ++ bufs).Perm (s.tickets.take (s.taken - 1)) := hacc
          rwa [hn, Nat.add_sub_cancel] at this
        rw [hn, List.take_add_one, hx, ← List.append_assoc]
        exact hacc'.append_right [x]
    rcases hpc' with rfl | rfl <;> exact hnew
  | dropped r head x q =>
    obtain ⟨n, hn, hx⟩ := hknows _ _ _ rfl
    change (s.freed ++ [x] ++ s.batch 0).Perm (s.tickets.take s.taken)
    have hacc : (s.freed ++ s.batch 0).Perm (s.tickets.take n) := by
      have : (s.freed ++ s.batch 0).Perm (s.tickets.take (s.taken - 1)) := hb
      rwa [hn, Nat.add_sub_cancel] at this
    rw [hn, List.take_add_one, hx, List.append_assoc]
    refine (List.Perm.append_left _ List.perm_append_comm).trans ?_
    rw [← List.append_assoc]
    exact hacc.append_right [x]
  | reset r => exact hb
  | drained r head => exact hb
  | store c bufs =>
    obtain ⟨-, hst, hacc⟩ := hb
    change Accounts { s with dataNotSend := bufs.length }
      (({ s with dataNotSend := bufs.length } : Slot Buf).batch 0) 0
    rw [batch_of_stored hst]
    exact hacc
  | send c bufs io ready pc' hpc' =>
    rw [Pc.books_of_hand hpc']
    exact hb
  | done => exact hb
  | free i x hi hx =>
    have hacc : (s.freed ++ s.batch i).Perm (s.tickets.take s.taken) := hb
    rw [batch_succ hi hx] at hacc
    change (s.freed ++ [x] ++ s.batch (i + 1)).Perm (s.tickets.take s.taken)
    rwa [List.append_assoc, List.singleton_append]
  | freed i hi =>
    have hacc : (s.freed ++ s.batch i).Perm (s.tickets.take s.taken) := hb
    rwa [batch_of_le hi] at hacc
  | cleared r pc' hpc' =>
    rw [Pc.books_of_hand hpc', batch_of_zero rfl]
    change (s.freed ++ (List.range s.dataNotSend).filterMap s.sendingQ ++ []).Perm
      (s.tickets.take s.taken)
    rw [List.append_nil]
    exact hb

/-! ## The invariant -/

/-- The books of a slot, over all its threads. -/
structure Ledger (w : World Buf) : Prop where
  books : ∀ pc ∈ w.threads, pc.hand = 1 → pc.books w.shared
  waiting : w.total Pc.hand = 0 → Accounts w.shared (w.shared.batch 0) 0
  /-- No batch is out while the right to send is free or has only just been
  taken. -/
  vacant : Open w → (w.shared.isSending = false ∨
    0 < w.total Pc.fresh + w.shared.sendPosted.length) → w.shared.dataNotSend = 0
  drained : ∀ pc ∈ w.threads, pc.drained = true → w.shared.taken = w.shared.tickets.length
  cleared : ∀ pc ∈ w.threads, pc.cleared = true → w.shared.dataNotSend = 0
  stored : ∀ i x, w.shared.sendingQ i = some x → x ∈ w.shared.tickets

theorem Ledger.initial [Inhabited Buf] (n : ℕ) : Ledger (World.initial n : World Buf) := by
  have hidle := World.initial_idle Buf n
  refine ⟨fun pc hpc hh => ?_, fun _ => List.Perm.refl _, fun _ _ => rfl, fun pc hpc hh => ?_,
    fun pc hpc hh => ?_, fun i x hx => by cases hx⟩
  all_goals
    rw [hidle pc hpc] at hh
    cases hh

section Step

variable {w w' : World Buf} {e : ℕ × Event Buf}

theorem Owned.hand_le_one (h : Owned b w) (hc : Counted RELEASE_FLAG (life w)) :
    w.total Pc.hand ≤ 1 :=
  h.total_le_one hc Pc.hand_le

/-- A thread that works on the closed slot leaves no other thread a pinned
reference, nor another one of its kind. -/
theorem Sound.alone_of_closed (h : Sound index w) {i j : ℕ} {p q : Pc Buf} (hij : i ≠ j)
    (hi : w.threads[i]? = some p) (hj : w.threads[j]? = some q) (hp : p.closed = 1) :
    q.pinned + q.closed = 0 := by
  have hone := h.counted.one
  have hpin := h.counted.pinned
  simp only [life] at hone hpin
  have hle := Pool.le_total Pc.closed (List.mem_of_getElem? hi)
  have hle' := Pool.le_total Pc.pinned (List.mem_of_getElem? hj)
  have := Pool.eq_zero_of_other (f := Pc.closed) (by omega) hij hi hj
  omega

/-- **Where the thread that moves has the buffers, or gets them, or works on
the closed slot, the others have none.** -/
theorem Owned.others_hand (h : Owned b w) (h' : Owned b w') (hs : Sound index w)
    (hs' : Sound index w') (hpc : w.threads[e.1]? = some pc)
    (ht : w'.threads = w.threads.set e.1 pc')
    (hhand : pc.hand = 1 ∨ pc'.hand = 1 ∨ pc.closed = 1) {j : ℕ} {q : Pc Buf} (hj : e.1 ≠ j)
    (hq : w.threads[j]? = some q) : q.hand = 0 := by
  rcases hhand with hp | hp | hp
  · exact Pool.eq_zero_of_other (f := Pc.hand) ((h.hand_le_one hs.counted).trans hp.ge) hj hpc hq
  · have hpc' : w'.threads[e.1]? = some pc' := by
      rw [ht, List.getElem?_set_self (List.getElem?_eq_some_iff.1 hpc).1]
    have hq' : w'.threads[j]? = some q := by rw [ht, List.getElem?_set_ne hj, hq]
    exact Pool.eq_zero_of_other (f := Pc.hand) ((h'.hand_le_one hs'.counted).trans hp.ge) hj
      hpc' hq'
  · have := hs.alone_of_closed hj hpc hq hp
    have := q.hand_le.2
    omega

/-- An action of a thread with no reference, of a slot that is not its own to
work on, leaves the tickets and the batch alone. -/
theorem Handling.kept (h : Handling s pc s' pc') (hpc : pc.pinned + pc.closed = 0)
    (hpc' : pc'.hand = 0) :
    s'.taken = s.taken ∧ s'.tickets = s.tickets ∧ s'.dataNotSend = s.dataNotSend := by
  have hhand := pc.hand_le.2
  cases h with
  | aside _ _ _ hdata _ htaken _ htickets =>
    exact ⟨htaken, htickets.resolve_right (fun h => by omega), hdata⟩
  | begin c head =>
    have : (Pc.realSendTail c head : Pc Buf).pinned = 1 + c.refs := rfl
    omega
  | done => cases hpc'
  | reset r => cases hpc
  | cleared r => cases hpc
  | look hp => omega
  | took | stored | dropped | drained | store | send | free | freed =>
    simp only [Pc.hand] at hhand
    omega

/-- The right to send and the batch, after a step on an open slot. -/
theorem Ledger.vacant_step (h : Ledger w) (ho : Owned b w) (hpc : w.threads[e.1]? = some pc)
    (ht : w'.threads = w.threads.set e.1 pc') (hh : Handling w.shared pc w'.shared pc')
    (hopen : Open w) (hfree : w'.shared.isSending = false ∨
      0 < w'.total Pc.fresh + w'.shared.sendPosted.length) : w'.shared.dataNotSend = 0 := by
  have hmem := List.mem_of_getElem? hpc
  have hmove := Pool.total_step Pc.fresh hpc ht
  have hfresh := Pool.le_total Pc.fresh hmem
  have hout : pc.closed = 0 := Pool.eq_zero_of_total hopen.closed_eq_zero.1 hmem
  have hsame (hdata : w'.shared.dataNotSend = w.shared.dataNotSend)
      (hflag : w'.shared.isSending = w.shared.isSending)
      (hposted : w'.shared.sendPosted = w.shared.sendPosted) (hp : pc'.fresh = pc.fresh) :
      w'.shared.dataNotSend = 0 := by
    rw [hdata]
    rw [hflag, hposted] at hfree
    exact h.vacant hopen (hfree.imp_right fun hpos => by omega)
  generalize hs : w.shared = s at *
  generalize hs' : w'.shared = s' at *
  cases hh with
  | aside _ _ _ hdata _ _ _ _ hflag hle =>
    rw [hdata, ← hs]
    refine h.vacant hopen ?_
    rw [hs]
    rcases hfree with hfalse | hpos
    · rcases hflag with heq | htrue | hone | hst
      · exact .inl (heq.symm.trans hfalse)
      · rw [htrue] at hfalse
        cases hfalse
      · exact .inr (by omega)
      · rw [pc.closed_eq, if_neg hst] at hout
        cases hout
    · rcases hle with hle | hfalse
      · exact .inr (by omega)
      · exact .inl hfalse
  | store c bufs =>
    -- the only hand has just put its batch out
    exfalso
    have howns := ho.one hopen
    have hone := Pool.le_total Pc.owns hmem
    have hfle : w.total Pc.fresh ≤ w.total Pc.owns := List.sum_le_sum fun pc _ => pc.fresh_le
    simp only [owners, inFlight, hs] at howns
    simp only [Pc.fresh, Pc.owns] at hmove hone
    split at howns
    · rename_i htrue
      rcases hfree with hfalse | hpos
      · rw [htrue] at hfalse
        cases hfalse
      · simp only at hpos
        omega
    · omega
  | begin => exact hsame rfl rfl rfl rfl
  | look _ _ _ hp => exact hsame rfl rfl rfl hp
  | took d => cases d <;> exact hsame rfl rfl rfl rfl
  | stored c bufs head x q pc' hpc' => rcases hpc' with rfl | rfl <;> exact hsame rfl rfl rfl rfl
  | send c bufs io ready pc' _ hp _ => exact hsame rfl rfl rfl hp
  | done => exact hsame rfl rfl rfl rfl
  | free => exact hsame rfl rfl rfl rfl
  | freed => rfl
  | dropped => cases hout
  | reset => cases hout
  | drained => cases hout
  | cleared => cases hout

/-- A producer holds a reference. -/
theorem Pc.fills_le (pc : Pc Buf) (t : BitVec 32) : pc.access.fills t ≤ pc.pinned := by
  cases pc
  case enqLoad | enqPut | enqPublish =>
    simp only [access, Access.fills]
    split
    · exact le_rfl
    · exact Nat.zero_le _
  all_goals exact Nat.zero_le _

theorem Pc.takes_le (pc : Pc Buf) : pc.access.takes ≤ pc.hand := by
  cases pc <;> first | exact le_rfl | exact Nat.zero_le _

/-- While a thread works on the closed slot, nobody is inside `Enqueue`, and
nobody else inside `Dequeue`. -/
theorem Sound.quiet_of_closed (h : Sound index w) (hpc : w.threads[e.1]? = some pc)
    (hcl : pc.closed = 1) (htakes : pc.access.takes = 0) :
    (queue w).total Access.takes = 0 ∧ ∀ t, (queue w).total (Access.fills t) = 0 := by
  have hmem := List.mem_of_getElem? hpc
  have hpin : w.total Pc.pinned = 0 := by
    have := Pool.le_total Pc.closed hmem
    have hone := h.counted.one
    have hp := h.counted.pinned
    simp only [life] at hone hp
    omega
  have hzero (f : Access Buf → ℕ) (hf : ∀ q ∈ w.threads, f q.access = 0) :
      (queue w).total f = 0 := by
    refine Pool.total_eq_zero fun a ha => ?_
    obtain ⟨q, hq, rfl⟩ := List.mem_map.1 ha
    exact hf q hq
  refine ⟨hzero _ (Pool.forall_of_others hpc htakes fun j q hij hj => ?_),
    fun t => hzero _ fun q hq => ?_⟩
  · have := h.alone_of_closed hij hpc hj hcl
    have := q.takes_le
    have := q.hand_le.2
    omega
  · have := q.fills_le t
    have := Pool.eq_zero_of_total hpin hq
    omega

/-- **When `Reset` finds the head cell unused, nothing is left in `_sendQ`.** -/
theorem Owned.drained_of_unused (h : Owned b w) (hs : Sound index w) {r : Resetter}
    {head : BitVec 32} (hpc : w.threads[e.1]? = some (.deqLoad (.reset r) head))
    (hu : w.shared.sendQ.loadUsed head = false) :
    w.shared.taken = w.shared.tickets.length := by
  obtain ⟨htakes, hfills⟩ := hs.quiet_of_closed hpc rfl rfl
  have hle : w.shared.taken ≤ w.shared.tickets.length := h.window.le
  have hhead : head = w.shared.sendQ.headIndex :=
    h.window.knows _ (List.mem_map_of_mem (List.mem_of_getElem? hpc))
  have hidx : w.shared.sendQ.headIndex = idx b w.shared.taken := h.window.head
  have hcell := h.window.cells w.shared.taken le_rfl (by
    rw [htakes]
    exact Nat.lt_add_of_pos_right (by decide))
  rw [hfills, ← hidx, ← hhead, show (queue w).shared.queue.loadUsed head = false from hu] at hcell
  by_contra hne
  rw [if_pos (show w.shared.taken < (queue w).shared.tickets.length from lt_of_le_of_ne hle hne)]
    at hcell
  cases hcell

theorem Ledger.life_step (h : Ledger w) (ho : Owned b w) (hs : Sound index w)
    (hs' : Sound index w') (hpc : w.threads[e.1]? = some pc)
    (ht : w'.threads = w.threads.set e.1 pc') (hh : Handling w.shared pc w'.shared pc') :
    (∀ q ∈ w'.threads, q.drained = true → w'.shared.taken = w'.shared.tickets.length) ∧
      ∀ q ∈ w'.threads, q.cleared = true → w'.shared.dataNotSend = 0 := by
  have hmem := List.mem_of_getElem? hpc
  have hpc' : w'.threads[e.1]? = some pc' := by
    rw [ht, List.getElem?_set_self (List.getElem?_eq_some_iff.1 hpc).1]
  -- a thread at such a point keeps the others from the tickets and the batch
  have hkept (j : ℕ) (q : Pc Buf) (hj : e.1 ≠ j) (hq : w.threads[j]? = some q)
      (hd : q.drained = true) : w'.shared.taken = w.shared.taken ∧
        w'.shared.tickets = w.shared.tickets ∧ w'.shared.dataNotSend = w.shared.dataNotSend := by
    have hcl := Pc.closed_of_drained hd
    have hq' : w'.threads[j]? = some q := by rw [ht, List.getElem?_set_ne hj, hq]
    have hnone := hs'.alone_of_closed (Ne.symm hj) hq' hpc' hcl
    have := pc'.hand_le.2
    exact hh.kept (hs.alone_of_closed (Ne.symm hj) hq hpc hcl) (by omega)
  have hnew : (pc'.drained = true → w'.shared.taken = w'.shared.tickets.length) ∧
      (pc'.cleared = true → w'.shared.dataNotSend = 0) := by
    have hdr := h.drained pc hmem
    have hcl := h.cleared pc hmem
    have hunused (r : Resetter) (head : BitVec 32) (heq : pc = .deqLoad (.reset r) head)
        (hu : w.shared.sendQ.loadUsed head = false) :
        w.shared.taken = w.shared.tickets.length :=
      ho.drained_of_unused (e := e) hs (heq ▸ hpc) hu
    generalize w.shared = s at *
    generalize w'.shared = s' at *
    cases hh with
    | aside _ _ _ hdata _ htaken _ htickets _ _ hlife =>
      rw [hdata, htaken]
      rcases hlife with hfalse | ⟨hd, hc⟩
      · have hfalse' : pc'.cleared ≠ true := fun hc => by
          rw [Pc.drained_of_cleared hc] at hfalse
          cases hfalse
        exact ⟨fun hd => absurd (hfalse.symm.trans hd) (by decide), fun hc => absurd hc hfalse'⟩
      · refine ⟨fun hd' => ?_, fun hc' => hcl (hc ▸ hc')⟩
        have hpd := hd ▸ hd'
        rcases htickets with heq | ⟨hpos, -⟩
        · rw [heq]
          exact hdr hpd
        · have hzero : pc.pinned = 0 := by
            cases pc <;> first | rfl | cases hpd
          omega
    | drained r head hu => exact ⟨fun _ => hunused r head rfl hu, nofun⟩
    | cleared r pc' => exact ⟨fun _ => hdr rfl, fun _ => rfl⟩
    | look _ hp' =>
      have hfalse := Pc.drained_of_hand hp'
      exact ⟨fun hd => absurd (hfalse.symm.trans hd) (by decide), fun hc =>
        absurd (hfalse.symm.trans (Pc.drained_of_cleared hc)) (by decide)⟩
    | stored c bufs head x q pc' hpc' => rcases hpc' with rfl | rfl <;> exact ⟨nofun, nofun⟩
    | send c bufs io ready pc' _ _ hfalse =>
      exact ⟨fun hd => absurd (hfalse.symm.trans hd) (by decide), fun hc =>
        absurd (hfalse.symm.trans (Pc.drained_of_cleared hc)) (by decide)⟩
    | _ => exact ⟨nofun, nofun⟩
  refine ⟨Pool.forall_threads_of_others ht (fun j q hj hq hd => ?_) hnew.1,
    Pool.forall_threads_of_others ht (fun j q hj hq hc => ?_) hnew.2⟩
  · obtain ⟨htaken, htickets, -⟩ := hkept j q hj hq hd
    rw [htaken, htickets]
    exact h.drained q (List.mem_of_getElem? hq) hd
  · obtain ⟨-, -, hdata⟩ := hkept j q hj hq (Pc.drained_of_cleared hc)
    rw [hdata]
    exact h.cleared q (List.mem_of_getElem? hq) hc

/-- An action of a thread that neither has nor gets the buffers changes
nothing in the books. -/
theorem Handling.same (h : Handling s pc s' pc') (hpc : pc.hand = 0) (hpc' : pc'.hand = 0)
    (hcl : pc.closed = 0) : s'.freed = s.freed ∧ s'.dataNotSend = s.dataNotSend ∧
      s'.sendingQ = s.sendingQ ∧ s'.sends = s.sends ∧ s'.taken = s.taken ∧
      (s'.tickets = s.tickets ∨ ∃ x, s'.tickets = s.tickets ++ [x]) := by
  cases h with
  | aside _ _ hfreed hdata hsending htaken hsends htickets =>
    exact ⟨hfreed, hdata, hsending, hsends, htaken, htickets.imp_right (·.2)⟩
  | begin => cases hpc'
  | done => cases hpc'
  | reset => cases hcl
  | cleared => cases hcl
  | look hp =>
    rw [hpc] at hp
    cases hp
  | _ => cases hpc

theorem Pc.closed_eq_zero (pc : Pc Buf) (h : pc.closed ≠ 1) : pc.closed = 0 := by
  have := pc.closed_eq
  split at this
  · exact this
  · exact absurd this h

theorem Pc.hand_eq (pc : Pc Buf) : pc.hand = 0 ∨ pc.hand = 1 := by
  cases pc <;> first | exact .inl rfl | exact .inr rfl

theorem Ledger.books_step (h : Ledger w) (ho : Owned b w) (ho' : Owned b w') (hs : Sound index w)
    (hs' : Sound index w') (hpc : w.threads[e.1]? = some pc)
    (ht : w'.threads = w.threads.set e.1 pc') (hh : Handling w.shared pc w'.shared pc') :
    (∀ q ∈ w'.threads, q.hand = 1 → q.books w'.shared) ∧
      (w'.total Pc.hand = 0 → Accounts w'.shared (w'.shared.batch 0) 0) := by
  have hmem := List.mem_of_getElem? hpc
  have hle : w.shared.taken ≤ w.shared.tickets.length := ho.window.le
  have hmove := Pool.total_step Pc.hand hpc ht
  by_cases hturn : pc.hand = 1 ∨ pc'.hand = 1 ∨ pc.closed = 1
  · have hothers (j : ℕ) (q : Pc Buf) (hj : e.1 ≠ j) (hq : w.threads[j]? = some q) : q.hand = 0 :=
      ho.others_hand ho' hs hs' hpc ht hturn hj hq
    have hb : pc.books w.shared := by
      rcases pc.hand_eq with hp | hp
      · rw [Pc.books_of_hand hp]
        exact h.waiting ((Pool.total_of_others hpc hothers).trans hp)
      · exact h.books pc hmem hp
    have hnew : pc'.books w'.shared := by
      refine hh.books hb hle (fun c head heq => ?_) fun d head x heq => ?_
      · -- past the check of `IncreaseRef` the slot is open
        have hpin : 0 < pc.pinned := by
          rw [heq]
          exact Nat.add_pos_left Nat.one_pos _
        have hopen : Open w := hs.open_iff.1 (hs.open_of_pinned hmem hpin)
        have hfresh := Pool.le_total Pc.fresh hmem
        have hone : pc.fresh = 1 := by rw [heq]; rfl
        exact h.vacant hopen (.inr (by omega))
      · obtain ⟨n, hn, -, -, hx⟩ := ho.window.knows _ (List.mem_map_of_mem (heq ▸ hmem))
        exact ⟨n, hn, hx⟩
    refine ⟨Pool.forall_threads_of_others ht (fun j q hj hq hp => ?_) fun _ => hnew, fun hz => ?_⟩
    · rw [hothers j q hj hq] at hp
      cases hp
    · rw [Pool.eq_zero_of_total hz (Pool.mem_threads hpc ht) |> Pc.books_of_hand] at hnew
      exact hnew
  · have hp : pc.hand = 0 := pc.hand_eq.resolve_right fun hp => hturn (.inl hp)
    have hp' : pc'.hand = 0 := pc'.hand_eq.resolve_right fun hp => hturn (.inr (.inl hp))
    have hcl : pc.closed = 0 := pc.closed_eq_zero fun hcl => hturn (.inr (.inr hcl))
    obtain ⟨hfreed, hdata, hsending, -, htaken, htickets⟩ := hh.same hp hp' hcl
    refine ⟨Pool.forall_threads ht (fun q hq hq1 => ?_) fun h1 => ?_, fun hz => ?_⟩
    · exact (h.books q hq hq1).congr hfreed hdata hsending htaken htickets hle
    · rw [hp'] at h1
      cases h1
    · have hwait : Pc.idle.books w.shared := h.waiting (by omega)
      exact hwait.congr hfreed hdata hsending htaken htickets hle

theorem Ledger.stored_step (h : Ledger w) (ho : Owned b w) (hpc : w.threads[e.1]? = some pc)
    (hh : Handling w.shared pc w'.shared pc') :
    ∀ i x, w'.shared.sendingQ i = some x → x ∈ w'.shared.tickets := by
  have hst := h.stored
  have hknows (d : Drain Buf) (head : BitVec 32) (x : Buf) (heq : pc = .deqClear d head x) :
      x ∈ w.shared.tickets := by
    obtain ⟨n, -, -, -, hx⟩ :=
      ho.window.knows _ (List.mem_map_of_mem (heq ▸ List.mem_of_getElem? hpc))
    exact List.mem_of_getElem? hx
  generalize w.shared = s at *
  generalize w'.shared = s' at *
  intro i x hx
  cases hh with
  | aside _ _ _ _ hsending _ _ htickets =>
    rw [hsending] at hx
    rcases htickets with heq | ⟨-, y, heq⟩
    · exact heq ▸ hst i x hx
    · exact heq ▸ List.mem_append_left _ (hst i x hx)
  | stored c bufs head y q =>
    by_cases hi : i = bufs.length
    · subst hi
      rw [show y = x by simpa using hx] at hknows
      exact hknows _ _ _ rfl
    · exact hst i x ((Function.update_of_ne hi _ _).symm.trans hx)
  | cleared =>
    by_cases hi : i < s.dataNotSend
    · simp only [hi, if_true] at hx
      cases hx
    · simp only [hi, if_false] at hx
      exact hst i x hx
  | _ => exact hst i x hx

/-- **Every step keeps the books.** -/
theorem Ledger.step (h : Ledger w) (ho : Owned b w) (ho' : Owned b w') (hs : Sound index w)
    (hs' : Sound index w') (hst : Slot.step index w e = some w') : Ledger w' := by
  obtain ⟨pc, pc', hpc, hnext, ht⟩ := Pool.step_eq_some hst
  have hh := next_handling hnext
  have hbooks := h.books_step ho ho' hs hs' hpc ht hh
  have hlife := h.life_step ho hs hs' hpc ht hh
  refine ⟨hbooks.1, hbooks.2, fun hw' hfree => ?_, hlife.1, hlife.2, h.stored_step ho hpc hh⟩
  rcases open_of_step hs hst (next_naming hnext) hw' with hw | hop
  · exact h.vacant_step ho hpc ht hh hw hfree
  · -- `Reset` has just returned
    obtain rfl := Pc.eq_of_opening hop
    have hzero := h.cleared _ (List.mem_of_getElem? hpc) rfl
    obtain ⟨heq, -⟩ := Prod.mk.inj (Option.some.inj hnext)
    rw [← heq]
    exact hzero

/-- **The books along a run.** -/
theorem Ledger.run [Inhabited Buf] {n : ℕ}
    (h : Runs (Slot.step index) Sends (World.initial n) w) :
    Sound index w ∧ Owned 0 w ∧ Ledger w := by
  have hinit : Sound index (World.initial n : World Buf) ∧ Owned 0 (World.initial n : World Buf) ∧
      Ledger (World.initial n : World Buf) :=
    ⟨Sound.initial n, Owned.initial n, Ledger.initial n⟩
  refine h.invariant (I := fun w => Sound index w ∧ Owned 0 w ∧ Ledger w) hinit ?_
  intro v u ev hv hst hok
  have hs := hv.1.step hst hok.2
  have ho := hv.2.1.step hv.1 hst hok.1
  exact ⟨hs, ho, hv.2.2.step hv.2.1 ho hv.1 hs hst⟩

end Step

end Slot

end NetLib
