import NetLib.Slot.Ledger
/-!
# What `Reset` leaves to the next session

When `Reset` returns, `_sendQ` is empty, nothing is left in `_sendingQ`, and
every buffer that was ever enqueued on the slot has been released once
(`reset_clears`), as long as no `Enqueue` overruns the queue and no
`SendExecutable` is left over at the next opening. What is passed to
`WSASend` later was enqueued later.
-/

namespace NetLib

namespace Slot

open Lifecycle LockFreeFixedQueue

variable {Buf : Type} {index b m : ℕ} {S : List (List Buf)} {w w' : World Buf}
  {e : ℕ × Event Buf} {s s' : Slot Buf} {pc pc' : Pc Buf}

/-! ## Nothing used -/

/-- Every cell is the cell of some ticket of the next lap. -/
theorem exists_cell_eq (b t : ℕ) (i : BitVec 32) : ∃ n, t ≤ n ∧ n < t + MAX_SEND_COUNT ∧
    cell MAX_SEND_COUNT i = cell MAX_SEND_COUNT (idx b n) := by
  refine ⟨t + (i.toNat % 512 + 512 - (b + t) % 512) % 512, Nat.le_add_right _ _, ?_, ?_⟩
  · change _ < t + 512
    omega
  · have hi : i = BitVec.ofNat 32 i.toNat := by simp
    rw [hi, idx, MAX_SEND_COUNT, cell_ofNat (by omega), cell_ofNat (by omega), BitVec.toNat_ofNat]
    have := i.isLt
    omega

/-- **Once everything has been taken no node is marked used.** -/
theorem Owned.unused (h : Owned b w) (htakes : (queue w).total Access.takes = 0)
    (hall : w.shared.taken = w.shared.tickets.length) (i : BitVec 32) :
    w.shared.sendQ.loadUsed i = false := by
  obtain ⟨n, hle, hlt, hcell⟩ := exists_cell_eq b w.shared.taken i
  have hn := h.window.cells n hle (by rw [htakes]; exact hlt)
  have hbeyond : ¬n < (queue w).shared.tickets.length := by
    change ¬n < w.shared.tickets.length
    omega
  rw [if_neg hbeyond] at hn
  rw [loadUsed_congr _ hcell]
  by_contra hu
  rw [show (queue w).shared.queue.loadUsed (idx b n) = true from Bool.eq_true_of_not_eq_false hu]
    at hn
  simp at hn

/-! ## What is sent afterwards -/

/-- After the first `m` tickets, the batches `new` and the buffers the thread
has on their way to the next one are tickets dequeued, in their order. -/
def Pc.Sends (m : ℕ) (s : Slot Buf) (new : List (List Buf)) (pc : Pc Buf) : Prop :=
  m + pc.loaded.2 ≤ s.taken ∧
    (new.flatten ++ pc.loaded.1).Sublist ((s.tickets.take (s.taken - pc.loaded.2)).drop m)

/-- Since the first `m` tickets were taken, when `S` had been passed to
`WSASend`, what was passed to it or is on its way there are later tickets. -/
structure Since (m : ℕ) (S : List (List Buf)) (w : World Buf) : Prop where
  sent : ∃ new, w.shared.sends = S ++ new ∧ Pc.Sends m w.shared new .idle ∧
    ∀ pc ∈ w.threads, pc.hand = 1 → pc.Sends m w.shared new

/-- Later tickets are among the tickets. -/
theorem sublist_take_succ (l : List Buf) (t m : ℕ) :
    ((l.take t).drop m).Sublist ((l.take (t + 1)).drop m) :=
  (List.take_sublist_take_left (Nat.le_succ t)).drop m

/-- The ticket just dequeued is the last of them. -/
theorem drop_take_succ {l : List Buf} {n : ℕ} {x : Buf} (hx : l[n]? = some x) (hm : m ≤ n) :
    (l.take (n + 1)).drop m = (l.take n).drop m ++ [x] := by
  obtain ⟨hlt, -⟩ := List.getElem?_eq_some_iff.1 hx
  rw [List.take_add_one, hx]
  exact List.drop_append_of_le_length (by rw [List.length_take]; omega)

theorem Pc.Sends.of_hand {new : List (List Buf)} (h : Pc.Sends m s new .idle) (hp : pc.hand = 0) :
    pc.Sends m s new := by
  unfold Pc.Sends
  rw [Pc.loaded_of_hand hp]
  exact h

theorem Pc.Sends.congr {new : List (List Buf)} (h : pc.Sends m s new) (htaken : s'.taken = s.taken)
    (htickets : s'.tickets = s.tickets ∨ ∃ x, s'.tickets = s.tickets ++ [x])
    (hle : s.taken ≤ s.tickets.length) : pc.Sends m s' new := by
  unfold Pc.Sends at h ⊢
  rw [htaken]
  rcases htickets with heq | ⟨x, heq⟩
  · rwa [heq]
  · rwa [heq, List.take_append_of_le_length (by omega)]

/-- **The action of the thread that has the buffers.** -/
theorem Handling.sends {new : List (List Buf)} (h : Handling s pc s' pc')
    (hsends : s.sends = S ++ new) (hidle : Pc.Sends m s new .idle)
    (hmine : pc.hand = 1 → pc.Sends m s new) (hle : s.taken ≤ s.tickets.length)
    (hknows : ∀ d head x, pc = .deqClear d head x →
      ∃ n, s.taken = n + 1 ∧ s.tickets[n]? = some x) :
    ∃ new', s'.sends = S ++ new' ∧ Pc.Sends m s' new' .idle ∧ pc'.Sends m s' new' := by
  have hstay {s' : Slot Buf} {pc' : Pc Buf} (heq : s'.sends = s.sends)
      (htaken : s'.taken = s.taken) (htickets : s'.tickets = s.tickets)
      (hloaded : pc'.loaded = ([], 0)) :
      ∃ new', s'.sends = S ++ new' ∧ Pc.Sends m s' new' .idle ∧ pc'.Sends m s' new' := by
    have hs : Pc.Sends m s' new .idle := hidle.congr htaken (.inl htickets) hle
    refine ⟨new, heq.trans hsends, hs, ?_⟩
    unfold Pc.Sends
    rw [hloaded]
    exact hs
  cases h with
  | aside hpc hpc' _ _ _ htaken heq htickets =>
    have hs : Pc.Sends m s' new .idle := hidle.congr htaken (htickets.imp_right (·.2)) hle
    exact ⟨new, heq.trans hsends, hs, hs.of_hand hpc'⟩
  | look hp _ _ _ hloaded =>
    refine ⟨new, hsends, hidle, ?_⟩
    unfold Pc.Sends
    rw [hloaded]
    exact hmine hp
  | took d head q =>
    have hlater : Pc.Sends m { s with sendQ := q, taken := s.taken + 1 } new .idle :=
      ⟨hidle.1.trans (Nat.le_succ _), hidle.2.trans (sublist_take_succ _ _ _)⟩
    cases d with
    | realSend c bufs =>
      obtain ⟨hm, hsub⟩ := hmine rfl
      exact ⟨new, hsends, hlater, Nat.succ_le_succ hm, hsub⟩
    | reset r => exact ⟨new, hsends, hlater, hlater⟩
  | stored c bufs head x q pc' hpc' =>
    obtain ⟨n, hn, hx⟩ := hknows _ _ _ rfl
    obtain ⟨hm, hsub⟩ := hmine rfl
    change m + 1 ≤ s.taken at hm
    have hadd : (new.flatten ++ (bufs ++ [x])).Sublist ((s.tickets.take s.taken).drop m) := by
      have hsub' : (new.flatten ++ bufs).Sublist ((s.tickets.take (s.taken - 1)).drop m) := hsub
      rw [hn, Nat.add_sub_cancel] at hsub'
      rw [hn, drop_take_succ hx (by omega), ← List.append_assoc]
      exact hsub'.append (List.Sublist.refl [x])
    refine ⟨new, hsends, hidle, ?_⟩
    rcases hpc' with rfl | rfl <;> exact ⟨hidle.1, hadd⟩
  | store c bufs =>
    obtain ⟨hm, hsub⟩ := hmine rfl
    exact ⟨new, hsends, hidle, hm, hsub⟩
  | send c bufs io ready pc' hpc' =>
    obtain ⟨hm, hsub⟩ := hmine rfl
    have hs : Pc.Sends m { s with sends := s.sends ++ [bufs], sendIo := io, sendReady := ready }
        (new ++ [bufs]) .idle := by
      refine ⟨hm, ?_⟩
      change ((new ++ [bufs]).flatten ++ []).Sublist _
      rw [List.flatten_append, List.flatten_singleton, List.append_nil]
      exact hsub
    refine ⟨new ++ [bufs], ?_, hs, hs.of_hand hpc'⟩
    change s.sends ++ [bufs] = S ++ (new ++ [bufs])
    rw [hsends, List.append_assoc]
  | cleared r pc' hpc' => exact hstay rfl rfl rfl (Pc.loaded_of_hand hpc')
  | begin | dropped | reset | drained | done | free | freed => exact hstay rfl rfl rfl rfl

theorem Since.step (h : Since m S w) (ho : Owned b w) (ho' : Owned b w') (hs : Sound index w)
    (hs' : Sound index w') (hst : Slot.step index w e = some w') : Since m S w' := by
  obtain ⟨pc, pc', hpc, hnext, ht⟩ := Pool.step_eq_some hst
  have hmem := List.mem_of_getElem? hpc
  have hh := next_handling hnext
  have hle : w.shared.taken ≤ w.shared.tickets.length := ho.window.le
  obtain ⟨new, hsends, hidle, hload⟩ := h.sent
  by_cases hturn : pc.hand = 1 ∨ pc'.hand = 1 ∨ pc.closed = 1
  · obtain ⟨new', hsends', hidle', hpc'⟩ := hh.sends hsends hidle (hload pc hmem) hle
      fun d head x heq => by
        obtain ⟨n, hn, -, -, hx⟩ := ho.window.knows _ (List.mem_map_of_mem (heq ▸ hmem))
        exact ⟨n, hn, hx⟩
    refine ⟨new', hsends', hidle', Pool.forall_threads_of_others ht (fun j q hj hq hp => ?_)
      fun _ => hpc'⟩
    rw [ho.others_hand ho' hs hs' hpc ht hturn hj hq] at hp
    cases hp
  · have hp : pc.hand = 0 := pc.hand_eq.resolve_right fun hp => hturn (.inl hp)
    have hp' : pc'.hand = 0 := pc'.hand_eq.resolve_right fun hp => hturn (.inr (.inl hp))
    have hcl : pc.closed = 0 := pc.closed_eq_zero fun hcl => hturn (.inr (.inr hcl))
    obtain ⟨-, -, -, hsends', htaken, htickets⟩ := hh.same hp hp' hcl
    refine ⟨new, hsends'.trans hsends, hidle.congr htaken htickets hle,
      Pool.forall_threads ht (fun q hq h1 => (hload q hq h1).congr htaken htickets hle)
        fun h1 => ?_⟩
    rw [hp'] at h1
    cases h1

theorem Pc.hand_of_cleared (h : pc.cleared = true) : pc.hand = 0 := by
  cases pc <;> first | rfl | cases h

/-- Where `Reset` has returned, the count starts anew. -/
theorem Since.of_cleared (hl : Ledger w) (hs : Sound index w)
    (hpc : w.threads[e.1]? = some pc) (hret : pc.cleared = true) :
    Since w.shared.tickets.length w.shared.sends w := by
  have hmem := List.mem_of_getElem? hpc
  have hcl := Pc.closed_of_drained (Pc.drained_of_cleared hret)
  have hall := hl.drained pc hmem (Pc.drained_of_cleared hret)
  have hle : w.shared.tickets.length ≤ w.shared.taken := hall.ge
  refine ⟨[], (List.append_nil _).symm, ⟨hle, List.nil_sublist _⟩, ?_⟩
  refine Pool.forall_of_others hpc (fun hhand => ?_) fun j q hij hj hhand => ?_
  · rw [Pc.hand_of_cleared hret] at hhand
    cases hhand
  · have := hs.alone_of_closed hij hpc hj hcl
    have := q.hand_le.2
    omega

/-- **No bytes cross from one client to the next.** In every run that neither
overruns the send queue nor opens the slot with a `SendExecutable` left over,
whenever `Reset` has returned and the slot is not open yet,

* `_sendQ` is empty, with no node marked used;
* nothing is left to release in `_sendingQ`;
* every buffer enqueued on the slot so far was released as often as it was
  enqueued;
* and whatever is passed to `WSASend` later is enqueued later. -/
theorem reset_clears [Inhabited Buf] {n : ℕ}
    (h : Runs (Slot.step index) Sends (World.initial n) w) (hpc : pc ∈ w.threads)
    (hret : pc.cleared = true) :
    w.shared.sendQ.size = 0 ∧ (∀ i, w.shared.sendQ.loadUsed i = false) ∧
      w.shared.dataNotSend = 0 ∧ (∀ i x, w.shared.sendingQ i = some x → x ∈ w.shared.freed) ∧
      w.shared.freed.Perm w.shared.tickets ∧
      ∀ w', Runs (Slot.step index) Sends w w' → ∃ new, w'.shared.sends = w.shared.sends ++ new ∧
        new.flatten.Sublist (w'.shared.tickets.drop w.shared.tickets.length) := by
  obtain ⟨hs, ho, hl⟩ := Ledger.run h
  obtain ⟨t, ht⟩ := List.mem_iff_getElem?.1 hpc
  have hcl := Pc.closed_of_drained (Pc.drained_of_cleared hret)
  have hidle := Pc.hand_of_cleared hret
  have hall := hl.drained pc hpc (Pc.drained_of_cleared hret)
  have hdata := hl.cleared pc hpc hret
  have htakes := (hs.quiet_of_closed (e := (t, .go)) ht hcl (by have := pc.takes_le; omega)).1
  -- nobody else has a buffer in hand
  have hfreed : w.shared.freed.Perm w.shared.tickets := by
    have hacc : Accounts w.shared (w.shared.batch 0) 0 := by
      refine hl.waiting ((Pool.total_of_others ht fun j q hij hj => ?_).trans hidle)
      have := hs.alone_of_closed hij ht hj hcl
      have := q.hand_le.2
      omega
    unfold Accounts at hacc
    rwa [batch_of_zero hdata, List.append_nil, Nat.sub_zero, hall, List.take_length] at hacc
  refine ⟨?_, ho.unused htakes hall, hdata, fun i x hx => hfreed.mem_iff.2 (hl.stored i x hx),
    hfreed, fun w' hrun => ?_⟩
  · rw [size_eq ho.window, hall]
    omega
  · have hsince : Since w.shared.tickets.length w.shared.sends w :=
      .of_cleared (e := (t, .go)) hl hs ht hret
    obtain ⟨-, -, hsince'⟩ := hrun.invariant (I := fun v => Sound index v ∧ Owned 0 v ∧
        Since w.shared.tickets.length w.shared.sends v) ⟨hs, ho, hsince⟩ fun {v u ev} hv hst hok =>
      have hs' := hv.1.step hst hok.2
      have ho' := hv.2.1.step hv.1 hst hok.1
      ⟨hs', ho', hv.2.2.step hv.2.1 ho' hv.1 hs' hst⟩
    obtain ⟨new, hsends, hsub, -⟩ := hsince'.sent
    refine ⟨new, hsends, ?_⟩
    have hsub' : (new.flatten ++ []).Sublist
        ((w'.shared.tickets.take w'.shared.taken).drop w.shared.tickets.length) := hsub.2
    rw [List.append_nil] at hsub'
    exact hsub'.trans ((List.take_sublist _ _).drop _)

/-- A session with one buffer in flight and one in the queue is disconnected,
and its slot reset. -/
def disconnectAndReset : List (ℕ × Event ℕ) :=
  (0, .accept 0) :: List.replicate 10 (0, .go) ++ (0, .result .pending) :: (0, .go) ::
    (1, .sendPacketBlocking ⟨1, 0⟩ 7) :: List.replicate 25 (1, .go) ++ (1, .result .pending) ::
    (1, .go) :: (2, .sendPacket ⟨1, 0⟩ 8) :: List.replicate 12 (2, .go) ++
    (2, .disconnect ⟨1, 0⟩) :: List.replicate 5 (2, .go) ++ (0, .recvAborted) :: (0, .go) ::
    (0, .sendAborted) :: List.replicate 3 (0, .go) ++ (0, .releaseExecutable) ::
    List.replicate 10 (0, .go)

/-- The next session of the slot sends a buffer of its own. -/
def acceptAndSendAgain : List (ℕ × Event ℕ) :=
  (0, .go) :: (0, .accept 0) :: List.replicate 10 (0, .go) ++ (0, .result .pending) :: (0, .go) ::
    (1, .sendPacketBlocking ⟨2, 0⟩ 9) :: List.replicate 25 (1, .go) ++ [(1, .result .pending)]

/-- The buffer of the first session never reaches `WSASend`, and the second
session sends its own. -/
theorem reset_clears_leftover : ∃ w w' : World ℕ,
    exec (Slot.step 0) (World.initial 3) disconnectAndReset = some w ∧
      exec (Slot.step 0) w acceptAndSendAgain = some w' ∧ w.shared.sends = [[7]] ∧
      w.shared.freed.Perm [7, 8] ∧ w'.shared.sends = [[7], [9]] ∧
      w.shared.sendQ.size = 0 ∧
      ∃ new, w'.shared.sends = w.shared.sends ++ new ∧ new.flatten.Sublist [9] := by
  have hmap : (exec (Slot.step 0) (World.initial 3) disconnectAndReset).map (fun w =>
        (w.threads, w.shared.tickets, w.shared.sends)) =
      some ([.releaseFreeIndex, .idle, .idle], [7, 8], [[7]]) := by rfl
  have hmap' : (exec (Slot.step 0) (World.initial 3)
      (disconnectAndReset ++ acceptAndSendAgain)).map (fun w =>
        (w.shared.tickets, w.shared.sends)) = some ([7, 8, 9], [[7], [9]]) := by rfl
  obtain ⟨w, hw, hall⟩ := Option.map_eq_some_iff.1 hmap
  obtain ⟨w', hw', hall'⟩ := Option.map_eq_some_iff.1 hmap'
  simp only [Prod.mk.injEq] at hall hall'
  obtain ⟨hthreads, htickets, hsends⟩ := hall
  obtain ⟨htickets', hsends'⟩ := hall'
  obtain ⟨v, hv, hrest⟩ := exec_append_iff.1 hw'
  obtain rfl := Option.some.inj (hw.symm.trans hv)
  have hmeets : execMeets (Slot.step 0) Sends (World.initial 3)
      (disconnectAndReset ++ acceptAndSendAgain) = true := by decide
  obtain ⟨hbefore, hafter⟩ := execMeets_append hw hmeets
  have hmem : .releaseFreeIndex ∈ w.threads := by
    rw [hthreads]
    exact List.mem_cons_self
  obtain ⟨hsize, -, -, -, hfreed, hlater⟩ := reset_clears (runs_of_exec hw hbefore) hmem rfl
  obtain ⟨new, hnew, hsub⟩ := hlater w' (runs_of_exec hrest hafter)
  rw [htickets', htickets] at hsub
  exact ⟨w, w', hw, hrest, hsends, htickets ▸ hfreed, hsends', hsize, new, hnew, hsub⟩

end Slot

end NetLib
