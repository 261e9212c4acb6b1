import Mathlib.Algebra.Order.BigOperators.Group.Finset
import NetLib.Handles.Books
/-!
# The reference counts are exact

As long as the threads keep to what `Careful` asks, the counter of a buffer
is the number of its references: the handles that hold it, its places in the
queues and the batches of the sessions, and what threads have in hand. The
buffer is in `_pool` when there is none. A `SendExecutable` that outlives its
session breaks this: it sends a batch while another is out.
-/

namespace NetLib

namespace Handles

open Slot

variable {w w' : World} {e : ℕ × Event} {n x : ℕ}

/-- What every run keeps. -/
structure Accounted (w : World) : Prop where
  sound : Server.AllSound w.onServer
  kept : ∀ k, Slot.Kept (w.onServer.slot k)
  lends : ∀ th ∈ w.threads, th.Lends w.shared
  counts : ∀ x, w.shared.refCount x = BitVec.ofNat 32 (w.references x)
  few : ∀ x, w.references x < 2 ^ 31
  stocked : ∀ x, w.stock x + (if w.references x = 0 then 0 else 1) =
    if x < w.shared.constructed then 1 else 0

/-! ## The start -/

theorem onServer_initial : (World.initial n).onServer = Server.World.initial n := by
  simp [World.onServer, World.initial, Server.World.initial]

theorem slot_references_initial : Slot.references (Slot.World.initial n : Slot.World ℕ) x = 0 := by
  have hcontents : contents (Slot.World.initial n : Slot.World ℕ).shared.sendQ = [] := by
    simp [contents, Slot.World.initial, Slot.initial, LockFreeFixedQueue.empty]
  rw [Slot.references, hcontents, batch_of_zero rfl, total_initial _ n rfl]
  rfl

theorem references_initial : (World.initial n).references x = 0 := by
  have hthreads : (World.initial n).total (Thread.references x) = 0 :=
    Pool.total_eq_zero fun th hth => by
      rw [List.eq_of_mem_replicate hth]
      rfl
  rw [World.references, onServer_initial, hthreads]
  simp only [Server.slot_initial, slot_references_initial, Finset.sum_const_zero]
  rfl

theorem stock_initial : (World.initial n).stock x = 0 := by
  have hthreads : (World.initial n).total (Thread.moving x) = 0 :=
    Pool.total_eq_zero fun th hth => by
      rw [List.eq_of_mem_replicate hth]
      rfl
  rw [World.stock, hthreads]
  rfl

theorem Accounted.initial (n : ℕ) : Accounted (World.initial n) where
  sound := onServer_initial ▸ Server.AllSound.initial n
  kept k := by
    rw [onServer_initial, Server.slot_initial]
    exact Kept.initial n
  lends th hth := by
    rw [List.eq_of_mem_replicate hth]
    exact ⟨fun h hh => (by cases hh), fun _ x hx => (by cases hx)⟩
  counts x := by
    rw [references_initial]
    rfl
  few x := by
    rw [references_initial]
    exact Nat.two_pow_pos 31
  stocked x := by
    rw [references_initial, stock_initial]
    rfl

/-! ## A step -/

/-- What a step does, on all sides. -/
theorem Accounted.moves (h : Accounted w) (hst : Handles.step w e = some w') (hc : Careful w e) :
    (w'.onServer = w.onServer ∨ ∃ ev, Server.step w.onServer ev = some w'.onServer) ∧
      (∀ k, Slot.Kept (w'.onServer.slot k)) ∧ (∀ th ∈ w'.threads, th.Lends w'.shared) ∧
      ∀ x, Booked w.shared w'.shared x (w.references x) (w.stock x) (w'.references x)
        (w'.stock x) := by
  obtain ⟨th, th', hth, hnext, ht⟩ := Pool.step_eq_some hst
  have hl := h.lends th (List.mem_of_getElem? hth)
  have hlent {q : Thread} (hq : q ∈ w.threads) (k : ℕ) (hk : q.lent = some k) :
      k ∉ e.2.changes := fun hmem => hc.1 k hmem q hq hk
  rcases next_does hnext with hd | hd
  · have heq := onServer_eq hth ht hd.onServer.1 hd.onServer.2
    refine ⟨.inl heq, fun k => heq ▸ h.kept k, ?_, hd.booked hth ht hl⟩
    refine Pool.forall_threads ht (fun q hq => ?_) (hd.lends hl (hlent (List.mem_of_getElem? hth)))
    exact (h.lends q hq).congr rfl rfl fun k b hk hb => hd.handles (hlent hq k hk) hb
  · obtain ⟨hkept, hbooked⟩ := hd.booked hth ht hl h.sound h.kept (hc.2 th hth)
    refine ⟨.inr (hd.step hth ht), hkept, ?_, hbooked⟩
    refine Pool.forall_threads ht (fun q hq => ?_) (hd.lends hl)
    exact (h.lends q hq).congr rfl rfl fun k b _ hb => hd.handles hb

/-- The books of a buffer stay right. -/
theorem Booked.counted {s s' : Handles} {r p r' p' : ℕ} (hb : Booked s s' x r p r' p')
    (hc : s.refCount x = BitVec.ofNat 32 r) (hr : r < 2 ^ 31)
    (hp : p + (if r = 0 then 0 else 1) = if x < s.constructed then 1 else 0) :
    s'.refCount x = BitVec.ofNat 32 r' ∧
      p' + (if r' = 0 then 0 else 1) = if x < s'.constructed then 1 else 0 := by
  cases hb with
  | same hr' hc' hp' =>
    subst hr'
    exact ⟨hc'.trans hc, by omega⟩
  | more hr' hc' hn hp' =>
    subst hr'
    refine ⟨?_, ?_⟩
    · rw [hc', hc, LockFreeFixedQueue.ofNat_add_one]
    · rw [hn, ← hp, if_neg (Nat.succ_ne_zero r)]
      rcases hp' with ⟨rfl, hpos⟩ | hp'
      · rw [if_neg hpos.ne']
      · -- the first reference
        have hle : (if x < s.constructed then 1 else 0) ≤ 1 := by split <;> omega
        omega
  | fewer hr' hc' hn hp' =>
    subst hr'
    have hdown : s.refCount x - 1 = BitVec.ofNat 32 r' := by
      rw [hc, ← LockFreeFixedQueue.ofNat_add_one, BitVec.add_sub_cancel]
    have hzero : BitVec.ofNat 32 r' = 0 ↔ r' = 0 := by
      rw [← BitVec.toNat_inj, BitVec.toNat_ofNat, Nat.mod_eq_of_lt (by omega)]
      rfl
    rw [hdown] at hp' hc'
    simp only [hzero] at hp'
    refine ⟨hc', ?_⟩
    rw [hn, ← hp, if_neg (Nat.succ_ne_zero r'), hp']
    split <;> omega

/-- What is asked of a step: care, and counters that do not overflow. -/
def Fair (w : World) (e : ℕ × Event) (w' : World) : Prop :=
  Careful w e ∧ Server.FewRefs w'.onServer ∧ ∀ x, w'.references x < 2 ^ 31

/-- **Every step keeps it.** -/
theorem Accounted.step (h : Accounted w) (hst : Handles.step w e = some w') (hf : Fair w e w') :
    Accounted w' := by
  obtain ⟨hserver, hkept, hlends, hbooked⟩ := h.moves hst hf.1
  have hcounted (x : ℕ) := (hbooked x).counted (h.counts x) (h.few x) (h.stocked x)
  refine ⟨?_, hkept, hlends, fun x => (hcounted x).1, hf.2.2, fun x => (hcounted x).2⟩
  rcases hserver with heq | ⟨ev, hev⟩
  · exact heq ▸ h.sound
  · exact h.sound.step hev hf.2.1

theorem Accounted.run (h : Runs Handles.step Fair (World.initial n) w) : Accounted w :=
  h.invariant (Accounted.initial n) Accounted.step

/-! ## What it is worth -/

/-- The counts of the buffers and their references. -/
structure Exact (w : World) : Prop where
  counts : ∀ x, (w.shared.refCount x).toInt = w.references x
  pooled : ∀ x, w.stock x = if x < w.shared.constructed ∧ w.references x = 0 then 1 else 0
  queued : ∀ x ∈ w.shared.pool, ∀ k < MAX_SESSIONS,
    x ∉ contents (w.shared.server.sessions k).sendQ ∧
      x ∉ (w.shared.server.sessions k).batch ((w.onServer.slot k).total Pc.released)
  sending : ∀ k < MAX_SESSIONS, 0 < (w.shared.server.sessions k).sendIo →
    (w.shared.server.sessions k).sendIo = 1 ∧
      ∃ bufs, (w.shared.server.sessions k).sends.getLast? = some bufs ∧
        ∀ x ∈ bufs, x ∉ w.shared.pool

theorem slot_references_le {k : ℕ} (hk : k < MAX_SESSIONS) :
    Slot.references (w.onServer.slot k) x ≤ w.references x := by
  have hle : Slot.references (w.onServer.slot k) x ≤
      ∑ i ∈ Finset.range MAX_SESSIONS, Slot.references (w.onServer.slot i) x :=
    Finset.single_le_sum (f := fun i => Slot.references (w.onServer.slot i) x)
      (fun _ _ => Nat.zero_le _) (Finset.mem_range.2 hk)
  rw [World.references]
  omega

/-- A buffer in `_pool` has no reference. -/
theorem Accounted.references_of_pool (h : Accounted w) (hx : x ∈ w.shared.pool) :
    w.references x = 0 := by
  have hpos : 0 < w.shared.pool.count x := List.count_pos_iff.2 hx
  have hstock := h.stocked x
  rw [World.stock] at hstock
  by_contra hne
  rw [if_neg hne] at hstock
  split at hstock <;> omega

/-- While a send is out, no entry of its batch was released. -/
theorem released_of_sending {w : Slot.World ℕ} (h : Slot.Kept w) (hio : 0 < w.shared.sendIo) :
    w.total Pc.released = 0 := by
  have hturn := h.turn
  have hzero : w.total Pc.turn = 0 := by omega
  refine Pool.total_eq_zero fun pc hpc => ?_
  have := Pool.eq_zero_of_total hzero hpc
  cases pc <;> first | rfl | cases this

theorem Accounted.exact (h : Accounted w) : Exact w where
  counts x := by
    have hlt := h.few x
    rw [h.counts x, BitVec.toInt_eq_toNat_of_lt, BitVec.toNat_ofNat,
      Nat.mod_eq_of_lt (by omega)]
    rw [BitVec.toNat_ofNat, Nat.mod_eq_of_lt (by omega)]
    omega
  pooled x := by
    have hstock := h.stocked x
    by_cases hr : w.references x = 0
    · simpa [hr] using hstock
    · rw [if_neg hr] at hstock
      rw [if_neg fun hand => hr hand.2]
      split at hstock <;> omega
  queued x hx k hk := by
    have hle : Slot.references (w.onServer.slot k) x ≤ _ := slot_references_le hk
    rw [h.references_of_pool hx, Slot.references] at hle
    constructor
    · intro hmem
      have hpos := List.count_pos_iff.2 hmem
      change (contents (w.shared.server.sessions k).sendQ).count x + _ + _ ≤ 0 at hle
      omega
    · intro hmem
      have hpos := List.count_pos_iff.2 hmem
      change _ + ((w.shared.server.sessions k).batch _).count x + _ ≤ 0 at hle
      omega
  sending k hk hio := by
    have hkept := h.kept k
    have hturn : _ + (w.shared.server.sessions k).sendIo ≤ 1 := hkept.turn
    obtain ⟨-, hlast⟩ := hkept.flying hio
    refine ⟨by omega, _, hlast, fun x hx hpool => ?_⟩
    have hle : Slot.references (w.onServer.slot k) x ≤ _ := slot_references_le hk
    rw [h.references_of_pool hpool, Slot.references, released_of_sending hkept hio] at hle
    have := List.count_pos_iff.2 hx
    omega

/-- **Reference counts of shared send buffers are exact.** In every run whose
steps are careful and do not overflow a counter, the counter of a buffer is
the number of its references; the buffer is in `_pool`, once, when it has
none and no thread has it on the way there or from there; and no buffer in
`_pool` is in a queue, in a batch or being sent. -/
theorem refCounts_exact (h : Runs Handles.step Fair (World.initial n) w) : Exact w :=
  (Accounted.run h).exact

/-! ## Runs on fixed inputs -/

/-- A careful run too short for a million references is a fair one. -/
theorem runs_of_short {es : List (ℕ × Event)} {r : ℕ} (h : Accounted w)
    (hrefs : ∀ i, (life (w.onServer.slot i)).refs ≤ r) (hr : ∀ x, w.references x ≤ r)
    (hlen : ((r + es.length : ℕ) : ℤ) < RELEASE_FLAG) (hexec : exec Handles.step w es = some w')
    (hcareful : execMeets Handles.step (fun w e _ => Careful w e) w es = true) :
    Runs Handles.step Fair w w' := by
  induction es generalizing w r with
  | nil =>
    obtain rfl : w = w' := Option.some.inj hexec
    exact .refl
  | cons e es ih =>
    obtain ⟨v, hv, hrest⟩ := exec_cons_iff.1 hexec
    obtain ⟨hc, hmeets⟩ := execMeets_cons hv hcareful
    obtain ⟨hserver, -, -, hbooked⟩ := h.moves hv hc
    rw [List.length_cons] at hlen
    have hrefs' (i : ℕ) : (life (v.onServer.slot i)).refs ≤ r + 1 := by
      rcases hserver with heq | ⟨ev, hev⟩
      · exact heq ▸ (hrefs i).trans (Nat.le_succ r)
      · rcases Server.step_slot hev i with heq | ⟨ev, hev⟩
        · exact heq ▸ (hrefs i).trans (Nat.le_succ r)
        · exact (life_step hev (h.sound.slots i).indexed).refs_le.trans
            (Nat.succ_le_succ (hrefs i))
    have hr' (x : ℕ) : v.references x ≤ r + 1 := by
      have hx := hr x
      cases hbooked x with
      | same hr' => omega
      | more hr' => omega
      | fewer hr' => omega
    have hflag : RELEASE_FLAG = 2 ^ 20 := rfl
    have hfair : Fair w e v := by
      refine ⟨hc, fun i => ?_, fun x => ?_⟩
      · have := hrefs' i
        unfold Slot.FewRefs
        omega
      · have := hr' x
        omega
    exact .head hv hfair (ih (h.step hv hfair) hrefs' hr' (by omega) hrest hmeets)

/-- Thread `t` goes on, `n` times. -/
def goOn (t n : ℕ) : List (ℕ × Event) := List.replicate n (t, .server 0 .go)

/-- Two buffers are allocated, and a session is accepted on slot 0. -/
def allocAndAccept : List (ℕ × Event) :=
  (0, .alloc 0) :: goOn 0 1 ++ (0, .alloc 1) :: goOn 0 1 ++ (0, .server 0 (.accept 0)) :: goOn 0 10

/-- The first buffer is sent to the session, by `SendPacketBlocking`. -/
def sendBlocking (id : SessionID) : List (ℕ × Event) :=
  (1, .sendPacketBlocking id 0) :: goOn 1 26 ++ (1, .server 0 (.result .pending)) :: goOn 1 1

theorem refCounts_exact_send : ∃ w : World,
    exec Handles.step (World.initial 2) (allocAndAccept ++ sendBlocking ⟨1, 0⟩) = some w ∧
      (w.shared.server.sessions 0).sends = [[0]] ∧ (w.shared.refCount 0).toInt = 2 ∧
      w.references 0 = 2 ∧ w.references 1 = 1 := by
  have hmap : (exec Handles.step (World.initial 2) (allocAndAccept ++ sendBlocking ⟨1, 0⟩)).map
      (fun w => (w.shared.refCount 0, w.shared.refCount 1, (w.shared.server.sessions 0).sends)) =
      some (2, 1, [[0]]) := by rfl
  obtain ⟨w, hw, hall⟩ := Option.map_eq_some_iff.1 hmap
  simp only [Prod.mk.injEq] at hall
  obtain ⟨hzero, hone, hsends⟩ := hall
  have hrefs (i : ℕ) : (life ((World.initial 2).onServer.slot i)).refs ≤ 0 := by
    rw [onServer_initial, Server.slot_initial, life_initial]
  have hrun := runs_of_short (Accounted.initial 2) hrefs (fun x => references_initial.le)
    (by decide) hw (by decide)
  have hcounts := (refCounts_exact hrun).counts
  have h0 := hcounts 0
  have h1 := hcounts 1
  rw [hzero] at h0
  rw [hone] at h1
  refine ⟨w, hw, hsends, by rw [hzero]; rfl, ?_, ?_⟩
  · exact Int.ofNat_inj.1 (h0.symm.trans rfl)
  · exact Int.ofNat_inj.1 (h1.symm.trans rfl)

/-- Is the thread in `RealSend`? -/
def Thread.inRealSend (th : Thread) : Bool :=
  match th.onServer.2 with
  | .realSend _ | .realSendCheck _ _ => true
  | pc => pc.realSends.isSome

/-- No two threads are in `RealSend` at a time. -/
def OneRealSend (w : World) : Prop := (w.threads.filter Thread.inRealSend).length ≤ 1

instance decidableOneRealSend (w : World) : Decidable (OneRealSend w) :=
  inferInstanceAs (Decidable (_ ≤ _))

/-- The first buffer is sent to session 1 by `SendPacket`; the receive of the
session fails, and the slot is reset and accepts session 2. The
`SendExecutable` is still posted. -/
def leaveSendExecutable : List (ℕ × Event) :=
  (1, .sendPacket ⟨1, 0⟩ 0) :: goOn 1 16 ++ (0, .server 0 (.result .error)) :: goOn 0 3 ++
    (0, .server 0 .releaseExecutable) :: goOn 0 12 ++ (0, .server 0 (.accept 0)) :: goOn 0 10

/-- The second buffer is queued behind a send that is out, the worker takes
the `SendExecutable`, the second handle is destroyed, and the first send
completes. -/
def sendTwice : List (ℕ × Event) :=
  (1, .sendPacket ⟨2, 0⟩ 1) :: goOn 1 13 ++ (1, .server 0 .sendExecutable) :: goOn 1 12 ++
    (1, .server 0 (.result .pending)) :: (1, .destroy 1) :: goOn 1 1 ++
    (1, .server 0 .sendDone) :: goOn 1 3

/-- **A buffer is freed while it is being sent.** A `SendExecutable` that
outlives its session runs `RealSend` while a send of the next session is out.
Its batch takes the place of the other in `_sendingQ` and `dataNotSend`; the
completion of the first send then releases the buffer of the second, and the
buffer of the first keeps a reference for good. No two calls of `RealSend`
overlap. -/
theorem freed_while_sent : ∃ w : World,
    Runs Handles.step (fun w e w' => Borrowed w e ∧ OneRealSend w') (World.initial 2) w ∧
      (w.shared.server.sessions 0).sendIo = 1 ∧
      (w.shared.server.sessions 0).sends = [[0], [1]] ∧ w.shared.pool = [1] ∧
      w.shared.refCount 0 = 2 ∧ ¬Exact w := by
  have hmap : (exec Handles.step (World.initial 2)
      (allocAndAccept ++ leaveSendExecutable ++ sendBlocking ⟨2, 0⟩ ++ sendTwice)).map (fun w =>
        ((w.shared.server.sessions 0).sendIo, (w.shared.server.sessions 0).sends, w.shared.pool,
          w.shared.refCount 0)) = some (1, [[0], [1]], [1], 2) := by rfl
  obtain ⟨w, hw, hall⟩ := Option.map_eq_some_iff.1 hmap
  simp only [Prod.mk.injEq] at hall
  obtain ⟨hio, hsends, hpool, hzero⟩ := hall
  refine ⟨w, runs_of_exec hw (by decide), hio, hsends, hpool, hzero, fun hexact => ?_⟩
  obtain ⟨-, bufs, hlast, hnot⟩ := hexact.sending 0 (by decide) (by omega)
  rw [hsends] at hlast
  obtain rfl : [1] = bufs := Option.some.inj hlast
  exact hnot 1 (List.mem_singleton_self 1) (by simp [hpool])

end Handles

end NetLib
