import NetLib.Buffer.Fifo
import NetLib.Recv.Room
/-!
# The cells a receive is posted for

`RecvNotIncrease` asks the ring three times for its room: for the room up to
the end of the array, whether there is more, and how much more. While the
session is in a group, the group's thread may take bytes out of the ring
between the answers. Then the second buffer need not go on where the first
one ends.
-/

namespace NetLib

namespace Recv

open CRingBuffer

variable {s s' : Recv} {w w' : World} {pc pc' : Pc}

/-- The cells of the buffers, in their order, are the ones behind the bytes in
the ring, in the order in which the ring comes to use them. -/
def InOrder (r : CRingBuffer) (bufs : List WSABUF) : Prop :=
  bufs.flatMap WSABUF.cells =
    (List.range (total bufs)).map fun i => getIndex (r.rear + BitVec.ofNat 32 i)

/-- The buffers begin at the rear, stay in the array, and take no more than is
free. A second buffer begins at the start of the array. -/
def Within (r : CRingBuffer) (bufs : List WSABUF) : Prop :=
  ∃ direct, getIndex r.rear + direct ≤ BUFFER_SIZE ∧
    (bufs = [⟨getIndex r.rear, direct⟩] ∧ direct ≤ r.freeSize ∨
      ∃ len, 0 < len ∧ bufs = [⟨getIndex r.rear, direct⟩, ⟨0, len⟩] ∧
        direct + len ≤ r.freeSize)

/-- More room is no harm. -/
theorem Within.mono {r r' : CRingBuffer} {bufs : List WSABUF} (h : Within r bufs)
    (hrear : r'.rear = r.rear) (hfree : r.freeSize ≤ r'.freeSize) : Within r' bufs := by
  unfold Within at h ⊢
  rw [hrear]
  obtain ⟨direct, hend, ⟨hone, hle⟩ | ⟨len, hpos, htwo, hle⟩⟩ := h
  · exact ⟨direct, hend, .inl ⟨hone, hle.trans hfree⟩⟩
  · exact ⟨direct, hend, .inr ⟨len, hpos, htwo, hle.trans hfree⟩⟩

/-- What the thread has been told of the room. -/
def Pc.Posts (s : Recv) : Pc → Prop
  | .recvFree direct =>
    direct ≤ s.recvQ.freeSize ∧ getIndex s.recvQ.rear + direct ≤ BUFFER_SIZE
  | .recvSecond direct =>
    direct < s.recvQ.freeSize ∧ getIndex s.recvQ.rear + direct ≤ BUFFER_SIZE
  | .wsaRecv bufs => Within s.recvQ bufs
  | _ => True

/-- Only the thread that has the receive in hand is told anything. -/
theorem Pc.Posts.of_works (h : pc.works = 0) (s : Recv) : pc.Posts s := by
  cases pc with
  | recvFree | recvSecond | wsaRecv => cases h
  | _ => trivial

theorem Pc.Posts.mono (h : pc.Posts s) (hrear : s'.recvQ.rear = s.recvQ.rear)
    (hfree : s.recvQ.freeSize ≤ s'.recvQ.freeSize) : pc.Posts s' := by
  unfold Pc.Posts at h ⊢
  split
  · exact ⟨h.1.trans hfree, hrear ▸ h.2⟩
  · exact ⟨h.1.trans_le hfree, hrear ▸ h.2⟩
  · exact Within.mono h hrear hfree
  · trivial

theorem rear_of_dequeue {r r' : CRingBuffer} {m n : ℕ} (h : r.dequeue n = some (m, r')) :
    r'.rear = r.rear := by
  simp only [dequeue] at h
  split at h
  · obtain ⟨-, rfl⟩ := Prod.mk.inj (Option.some.inj h)
    rfl
  · split at h
    · cases h
    · obtain ⟨-, rfl⟩ := Prod.mk.inj (Option.some.inj h)
      rfl

theorem rear_of_decode {r plain : CRingBuffer} {key : Byte} (h : r.decode key = some plain) :
    plain.rear = r.rear := by
  simp only [decode, Option.map_eq_some_iff] at h
  obtain ⟨bytes, -, rfl⟩ := h
  rfl

/-- The packet at the front, where the handler goes on to the callback: as it
is, or decoded in its place. -/
theorem packet_delivers {g : GroupID} {bytes : List Byte} {reader : Reader}
    (h : packet s g bytes reader = some (s', .callback g reader (s.header.len bytes))) :
    ∃ plain m recvQ, plain.dequeue s.header.size = some (m, recvQ) ∧
      s' = { s with recvQ := recvQ, calls := s.calls + 1 } ∧
      (s.header = .NetHeader ∧ s.recvQ.decode s.staticKey = some plain ∧
          plain.checksumValid = some true ∨ s.header = .LANHeader ∧ plain = s.recvQ) := by
  have hafter (s₁ : Recv) :
      some (s₁, after g) ≠ some (s', .callback g reader (s.header.len bytes)) := by
    intro heq
    have := (Prod.mk.inj (Option.some.inj heq)).2
    unfold after at this
    split at this <;> cases this
  unfold packet at h
  split at h
  · exact absurd h (hafter _)
  split at h
  · exact absurd h (hafter _)
  split at h
  · rename_i hkey
    obtain ⟨plain, hdecode, h⟩ := Option.bind_eq_some_iff.1 h
    obtain ⟨valid, hvalid, h⟩ := Option.bind_eq_some_iff.1 h
    split at h
    · rename_i htrue
      subst htrue
      obtain ⟨⟨m, recvQ⟩, hdequeue, heq⟩ := Option.map_eq_some_iff.1 h
      obtain ⟨rfl, -⟩ := Prod.mk.inj heq
      exact ⟨plain, m, recvQ, hdequeue, rfl, .inl ⟨hkey, hdecode, hvalid⟩⟩
    · exact absurd h (hafter _)
  · rename_i hkey
    obtain ⟨⟨m, recvQ⟩, hdequeue, heq⟩ := Option.map_eq_some_iff.1 h
    obtain ⟨rfl, -⟩ := Prod.mk.inj heq
    exact ⟨s.recvQ, m, recvQ, hdequeue, rfl, .inr ⟨hkey, rfl⟩⟩

/-- **Only the worker moves the rear.** -/
theorem next_rear {e : Event} (h : next s pc e = some (s', pc')) (hw : pc.works = 0)
    (hw' : pc'.works = 0) : s'.recvQ.rear = s.recvQ.rear := by
  have ha := next_action h
  cases ha
  case complete => cases hw'
  case moveRear => cases hw
  case invalid hdecode _ => exact rear_of_decode hdecode
  case deliver =>
    obtain ⟨plain, m, recvQ, hdequeue, hs, ⟨-, hdecode, -⟩ | ⟨-, rfl⟩⟩ := packet_delivers h
    · rw [hs]
      exact (rear_of_dequeue hdequeue).trans (rear_of_decode hdecode)
    · rw [hs]
      exact rear_of_dequeue hdequeue
  case read hdequeue => exact rear_of_dequeue hdequeue
  all_goals rfl

/-- **What one step tells the thread that takes it.** -/
theorem Action.posts {e : Event} (h : Action s pc e s' pc') (hposts : pc.Posts s) :
    pc'.Posts s' := by
  have hafter (g : GroupID) (s₁ : Recv) : (after g).Posts s₁ := by
    unfold after
    split <;> trivial
  have hrear := getIndex_eq s.recvQ.rear
  cases h
  case recvDirect direct hd =>
    obtain rfl := Option.some.inj (hd.symm.trans (directEnqueueSize_eq s.recvQ))
    refine ⟨Nat.min_le_left _ _, ?_⟩
    have := Nat.min_le_right s.recvQ.freeSize (8192 - getIndex s.recvQ.rear)
    rw [BUFFER_SIZE]
    omega
  case recvTwo hd => exact ⟨hd, hposts.2⟩
  case recvOne hd => exact ⟨_, hposts.2, .inl ⟨rfl, hposts.1⟩⟩
  case recvSecond direct =>
    obtain ⟨hlt, hend⟩ := hposts
    exact ⟨direct, hend, .inr ⟨s.recvQ.freeSize - direct, by omega, rfl, by omega⟩⟩
  case otherGroup | noHeader | refused | short | invalid => exact hafter _ _
  all_goals trivial

/-- What the threads have been told of the room holds. -/
structure Posting (w : World) : Prop where
  hands : Hands w
  posts : ∀ pc ∈ w.threads, pc.Posts w.shared

theorem Posting.step {e : ℕ × Event} (h : Posting w) (hst : Recv.step w e = some w') :
    Posting w' := by
  obtain ⟨pc, pc', hpc, hnext, ht⟩ := Pool.step_eq_some hst
  have ha := next_action hnext
  have hhands := h.hands.step hst
  refine ⟨hhands, Pool.forall_threads_of_others ht (fun j q hj hq => ?_)
    (ha.posts (h.posts pc (List.mem_of_getElem? hpc)))⟩
  by_cases hw : pc.works = 0 ∧ pc'.works = 0
  · exact (h.posts q (List.mem_of_getElem? hq)).mono (next_rear hnext hw.1 hw.2)
      (ha.quiet hw.1 hw.2).1
  · exact .of_works (h.hands.alone hhands hpc ht (by omega) hj hq) _

theorem Posting.initial (staticKey : Byte) (maxPacketLen : ℕ) (isHandled : Bool) (n : ℕ) :
    Posting (World.initial staticKey maxPacketLen isHandled n) := by
  refine ⟨.initial _ _ _ _, fun pc hpc => ?_⟩
  rcases List.mem_cons.1 hpc with rfl | hpc
  · trivial
  · rw [List.eq_of_mem_replicate hpc]
    trivial

/-! ## The order of the cells -/

/-- A piece of the ring, from the `k`-th cell behind the rear on. -/
theorem cells_behind {rear start k len : ℕ} (hend : start + len ≤ BUFFER_SIZE)
    (hstart : 0 < len → start = (rear + k) % 8192) :
    WSABUF.cells ⟨start, len⟩ = (List.range len).map fun i => (rear + (k + i)) % 8192 := by
  refine List.map_congr_left fun i hi => ?_
  have hi : i < len := List.mem_range.1 hi
  have hmod := hstart (Nat.zero_lt_of_lt hi)
  change start + len ≤ 8192 at hend
  change start + i = _
  omega

/-- A second buffer begins where the first one ends, around the end of the
array. -/
def GoesOn (bufs : List WSABUF) : Prop :=
  ∀ b b', bufs = [b, b'] → (b.buf + b.len) % BUFFER_SIZE = b'.buf

/-- The cells behind the rear, as many as fit, hold no byte. -/
theorem not_stored {r : CRingBuffer} {i : ℕ} (hi : i < r.freeSize) :
    getIndex (r.rear + BitVec.ofNat 32 i) ∉ r.stored := by
  intro hmem
  obtain ⟨j, hj, heq⟩ := List.mem_map.1 hmem
  have hj := List.mem_range.1 hj
  have hsum := freeSize_add_size r
  have hsize := size_eq_mod r
  have hrear := getIndex_eq r.rear
  have hfront := getIndex_eq r.front
  rw [getIndex_add, getIndex_add] at heq
  omega

/-- **Where a receive is written.** In every run, the cells `RecvNotIncrease`
posts are the ones behind the bytes of the ring in their order, and hold none
of these bytes, if and only if it posts one buffer or the first of two reaches
the end of the array. -/
theorem posted_in_order_iff {staticKey : Byte} {maxPacketLen : ℕ} {isHandled : Bool} {n : ℕ}
    (h : Runs Recv.step (fun _ _ _ => True)
      (World.initial staticKey maxPacketLen isHandled n) w)
    {bufs : List WSABUF} (hrecv : .wsaRecv bufs ∈ w.threads) :
    (InOrder w.shared.recvQ bufs ∧
      ∀ c ∈ bufs.flatMap WSABUF.cells, c ∉ w.shared.recvQ.stored) ↔ GoesOn bufs := by
  have hposting := h.invariant (Posting.initial staticKey maxPacketLen isHandled n)
    fun h hst _ => h.step hst
  obtain ⟨direct, hend, hbufs⟩ := hposting.posts _ hrecv
  generalize w.shared.recvQ = r at hend hbufs ⊢
  have hrear := getIndex_eq r.rear
  have hfree : InOrder r bufs → total bufs ≤ r.freeSize →
      ∀ c ∈ bufs.flatMap WSABUF.cells, c ∉ r.stored := by
    intro horder hle c hc
    rw [horder] at hc
    obtain ⟨i, hi, rfl⟩ := List.mem_map.1 hc
    exact not_stored (by have := List.mem_range.1 hi; omega)
  have hbehind : InOrder r bufs ↔ bufs.flatMap WSABUF.cells =
      (List.range (total bufs)).map fun i => (getIndex r.rear + i) % 8192 := by
    simp only [InOrder, getIndex_add]
  have hfirst : WSABUF.cells ⟨getIndex r.rear, direct⟩ =
      (List.range direct).map fun i => (getIndex r.rear + (0 + i)) % 8192 :=
    cells_behind hend fun _ => by omega
  rcases hbufs with ⟨rfl, hle⟩ | ⟨len, hpos, rfl, hle⟩
  · have htotal : total [⟨getIndex r.rear, direct⟩] = direct := by simp [total]
    have horder : InOrder r [⟨getIndex r.rear, direct⟩] := by
      rw [hbehind, htotal, List.flatMap_cons, List.flatMap_nil, List.append_nil, hfirst]
      simp only [Nat.zero_add]
    constructor
    · intro _ b b' heq
      cases heq
    · exact fun _ => ⟨horder, hfree horder (by omega)⟩
  · have htotal : total [⟨getIndex r.rear, direct⟩, ⟨0, len⟩] = direct + len := by
      simp [total]
    have hgoes : GoesOn [⟨getIndex r.rear, direct⟩, ⟨0, len⟩] ↔
        (getIndex r.rear + direct) % 8192 = 0 := by
      constructor
      · exact fun hgoes => hgoes _ _ rfl
      · intro heq b b' hb
        obtain ⟨rfl, hb'⟩ := List.cons.inj hb
        obtain ⟨rfl, -⟩ := List.cons.inj hb'
        exact heq
    have hsplit : InOrder r [⟨getIndex r.rear, direct⟩, ⟨0, len⟩] ↔
        WSABUF.cells ⟨0, len⟩ =
          (List.range len).map fun i => (getIndex r.rear + (direct + i)) % 8192 := by
      rw [hbehind, htotal, List.flatMap_cons, List.flatMap_cons, List.flatMap_nil,
        List.append_nil, hfirst, List.range_add, List.map_append, List.map_map]
      simp only [Nat.zero_add, Function.comp_def, List.append_cancel_left_eq]
    rw [hgoes]
    constructor
    · rintro ⟨horder, -⟩
      -- the second buffer begins at the start of the array
      have hcells := congrArg List.head? (hsplit.1 horder)
      obtain ⟨m, rfl⟩ := Nat.exists_eq_add_of_lt hpos
      simp only [WSABUF.cells, Nat.zero_add, List.range_succ_eq_map, List.map_cons,
        List.head?_cons, Option.some.injEq, Nat.add_zero] at hcells
      exact hcells.symm
    · intro hreach
      have horder := hsplit.2 (cells_behind (by
          have := freeSize_add_size r
          rw [BUFFER_SIZE]
          omega)
        fun _ => hreach.symm)
      exact ⟨horder, hfree horder (by omega)⟩

/-- A session in group 1 receives a packet of one byte. The worker asks for
the room up to the end of the array, the group takes the header out of the
ring, and the worker goes on. -/
def postInBetween : List (ℕ × Event) :=
  List.replicate 4 (0, .go) ++ [(0, .move 1), (1, .complete [1, 0, 0x55])] ++
    List.replicate 8 (1, .go) ++ (2, .update 1) :: List.replicate 6 (2, .go) ++
    [(2, .callback (.read 1 fun _ => .done)), (1, .go), (1, .go)]

/-- The last cell of the array is left out: the first buffer ends before it,
and the second one begins at the start of the array. -/
theorem posted_in_order_iff_raced : ∃ w,
    exec Recv.step (World.initial 0 100 false 2) postInBetween = some w ∧
      .wsaRecv [⟨3, 8188⟩, ⟨0, 2⟩] ∈ w.threads ∧
      ¬ (InOrder w.shared.recvQ [⟨3, 8188⟩, ⟨0, 2⟩] ∧
        ∀ c ∈ [⟨3, 8188⟩, ⟨0, 2⟩].flatMap WSABUF.cells, c ∉ w.shared.recvQ.stored) := by
  have hrun : (exec Recv.step (World.initial 0 100 false 2) postInBetween).map
      (fun w => w.threads[1]?) = some (some (.wsaRecv [⟨3, 8188⟩, ⟨0, 2⟩])) := by
    rfl
  obtain ⟨w, hw, hthread⟩ := Option.map_eq_some_iff.1 hrun
  have hmem := List.mem_of_getElem? hthread
  refine ⟨w, hw, hmem, fun horder => ?_⟩
  have hgoes := (posted_in_order_iff (Runs.of_exec hw) hmem).1 horder ⟨3, 8188⟩ ⟨0, 2⟩ rfl
  exact absurd hgoes (by decide)

end Recv

end NetLib
