import Mathlib.Data.List.Nodup
import NetLib.Buffer.Ring
import NetLib.Library.StreamFifo
/-!
# The ring is a FIFO of 8191 bytes

Receives into the posted buffers, `Peek`, `Dequeue` and `Clear` answer as a
`StreamFifo` does, however far `_front` and `_rear` have come and wrapped.
The buffers that `RecvNotIncrease` posts are made of the cells that hold
nothing.
-/

namespace NetLib

/-- The cells of a buffer. -/
def WSABUF.cells (b : WSABUF) : List ℕ := (List.range b.len).map (b.buf + ·)

namespace CRingBuffer

open StreamFifo

/-- The ring as constructed. -/
def initial : CRingBuffer := ⟨fun _ => 0, 0, 0⟩

def clear (r : CRingBuffer) : CRingBuffer := { r with front := 0, rear := 0 }

/-- A call on the ring. A receive is `RecvNotIncrease`, the kernel's writes
and `MoveRear`. -/
def step (r : CRingBuffer) : Call Byte → Option (CRingBuffer × Answer Byte)
  | .recv data => do
    let bufs ← r.recvBufs
    let buffer ← scatter r.buffer bufs data
    return (({ r with buffer := buffer } : CRingBuffer).moveRear data.length, .done)
  | .peek n => (r.peek n).map fun bytes => (r, .bytes bytes)
  | .dequeue n => (r.dequeue n).map fun x => (x.2, .count x.1)
  | .clear => some (r.clear, .done)

/-- The cells the ring stores its bytes in. -/
def stored (r : CRingBuffer) : List ℕ :=
  (List.range r.size).map fun i => getIndex (r.front + BitVec.ofNat 32 i)

/-- The ring has the bytes `q`, and room for as many as are short of 8191: in
buffers that are inside the array, do not overlap, and touch no byte stored. -/
structure Refines (r : CRingBuffer) (q : List Byte) : Prop where
  size : r.size = q.length
  freeSize : r.freeSize = 8191 - q.length
  peek : ∀ n ≤ q.length, r.peek n = some (q.take n)
  buffers : ∃ bufs, r.recvBufs = some bufs ∧ (bufs.map WSABUF.len).sum = r.freeSize ∧
    (bufs.flatMap WSABUF.cells).Nodup ∧
    ∀ c ∈ bufs.flatMap WSABUF.cells, c < BUFFER_SIZE ∧ c ∉ r.stored

variable {r : CRingBuffer} {f : ℕ} {bs : List Byte}

/-- **The posted buffers are the free cells**, in the order in which they
come to be used. -/
theorem Holds.cells_recvBufs (h : Holds r f bs) : ∃ bufs, r.recvBufs = some bufs ∧
    bufs.flatMap WSABUF.cells =
      (List.range (8191 - bs.length)).map fun i => (f + bs.length + i) % 8192 := by
  have hlt := h.lt
  have hpiece {k start len : ℕ} (hle : start + len ≤ 8192)
      (hstart : ∀ i < len, start + i = (f + bs.length + (k + i)) % 8192) :
      WSABUF.cells ⟨start, len⟩ =
        (List.range len).map fun i => (f + bs.length + (k + i)) % 8192 :=
    List.map_congr_left fun i hi => hstart i (List.mem_range.1 hi)
  have hrange (m n : ℕ) : (List.range (m + n)).map (fun i => (f + bs.length + i) % 8192) =
      (List.range m).map (fun i => (f + bs.length + (0 + i)) % 8192) ++
        (List.range n).map (fun i => (f + bs.length + (m + i)) % 8192) := by
    rw [List.range_add, List.map_append, List.map_map]
    simp only [Nat.zero_add, Function.comp_def]
  rw [recvBufs, directEnqueueSize_eq, h.getIndex_rear, h.freeSize_eq, Option.map_some]
  generalize hfree : 8191 - bs.length = free
  generalize hdirect : min free (8192 - (f + bs.length) % 8192) = direct
  by_cases hmore : direct < free
  · rw [if_pos hmore]
    refine ⟨_, rfl, ?_⟩
    rw [List.flatMap_cons, List.flatMap_cons, List.flatMap_nil, List.append_nil,
      hpiece (k := 0) (by omega) (fun i hi => by omega),
      hpiece (k := direct) (by omega) (fun i hi => by omega), ← hrange,
      Nat.add_sub_cancel' (by omega)]
  · rw [if_neg hmore]
    refine ⟨_, rfl, ?_⟩
    rw [List.flatMap_cons, List.flatMap_nil, List.append_nil, show direct = free by omega,
      hpiece (k := 0) (by omega) (fun i hi => by omega)]
    simp only [Nat.zero_add]

theorem Holds.refines (h : Holds r f bs) : Refines r bs := by
  have hlt := h.lt
  refine ⟨h.size_eq, h.freeSize_eq, fun n hn => h.peek_eq hn, ?_⟩
  obtain ⟨bufs, hbufs, hsum, -⟩ := h.recv
  obtain ⟨bufs', hbufs', hcells⟩ := h.cells_recvBufs
  obtain rfl : bufs = bufs' := Option.some.inj (hbufs.symm.trans hbufs')
  refine ⟨bufs, hbufs, hsum.trans h.freeSize_eq.symm, ?_, ?_⟩
  · rw [hcells]
    refine List.Nodup.map_on (fun i hi j hj heq => ?_) List.nodup_range
    have hi := List.mem_range.1 hi
    have hj := List.mem_range.1 hj
    omega
  · intro c hc
    rw [hcells] at hc
    obtain ⟨i, hi, rfl⟩ := List.mem_map.1 hc
    have hi := List.mem_range.1 hi
    refine ⟨Nat.mod_lt _ (by decide), fun hmem => ?_⟩
    obtain ⟨j, hj, heq⟩ := List.mem_map.1 hmem
    have hj := List.mem_range.1 hj
    rw [h.size_eq] at hj
    rw [h.front, ← BitVec.ofNat_add, getIndex_ofNat] at heq
    omega

theorem holds_clear (r : CRingBuffer) : Holds r.clear 0 [] :=
  ⟨rfl, rfl, by decide, fun _ hi => absurd hi (Nat.not_lt_zero _)⟩

/-- What is asked for is what is dequeued. -/
theorem count_of_dequeue {r' : CRingBuffer} {m n : ℕ} (h : r.dequeue n = some (m, r'))
    (hn : n ≤ r.size) : m = n := by
  simp only [dequeue] at h
  split at h
  case isTrue hzero =>
    obtain ⟨rfl, -⟩ := Prod.mk.inj (Option.some.inj h)
    omega
  case isFalse =>
    rw [if_neg (not_lt.2 hn)] at h
    exact (Prod.mk.inj (Option.some.inj h)).1.symm

/-- **Every call that the queue allows, the ring answers alike.** -/
theorem Holds.step {e : Call Byte} {bs' : List Byte} {o : Answer Byte} (h : Holds r f bs)
    (hst : StreamFifo.step 8191 bs e = some (bs', o)) :
    ∃ r', r.step e = some (r', o) ∧ ∃ f', Holds r' f' bs' := by
  cases e with
  | recv data =>
    simp only [StreamFifo.step] at hst
    split at hst
    case isFalse => cases hst
    case isTrue hroom =>
      obtain ⟨rfl, rfl⟩ := Prod.mk.inj (Option.some.inj hst)
      obtain ⟨bufs, hbufs, -, hrecv⟩ := h.recv
      obtain ⟨buffer, hbuffer, hholds⟩ := hrecv data hroom.2
      exact ⟨_, by simp [CRingBuffer.step, hbufs, hbuffer], f, hholds⟩
  | peek n =>
    simp only [StreamFifo.step] at hst
    split at hst
    case isFalse => cases hst
    case isTrue hn =>
      obtain ⟨rfl, rfl⟩ := Prod.mk.inj (Option.some.inj hst)
      exact ⟨r, by simp only [CRingBuffer.step, h.peek_eq hn, Option.map_some], f, h⟩
  | dequeue n =>
    simp only [StreamFifo.step] at hst
    split at hst
    case isFalse => cases hst
    case isTrue hn =>
      obtain ⟨rfl, rfl⟩ := Prod.mk.inj (Option.some.inj hst)
      obtain ⟨m, r', hdeq, hholds⟩ := h.dequeue_eq hn
      obtain rfl : m = n := count_of_dequeue hdeq (by rw [h.size_eq]; exact hn)
      exact ⟨r', by simp only [CRingBuffer.step, hdeq, Option.map_some], _, hholds⟩
  | clear =>
    obtain ⟨rfl, rfl⟩ := Prod.mk.inj (Option.some.inj hst)
    exact ⟨r.clear, rfl, 0, holds_clear r⟩

/-- **The ring refines the queue**: calls that a queue of 8191 bytes allows,
made on the ring as constructed, all go through with the queue's answers, and
leave the ring with the queue's bytes. -/
theorem ring_refines_fifo {calls : List (Call Byte)} {q : List Byte} {os : List (Answer Byte)}
    (h : answers (StreamFifo.step 8191) [] calls = some (q, os)) :
    ∃ r, answers CRingBuffer.step initial calls = some (r, os) ∧ Refines r q := by
  have hsim (r : CRingBuffer) (bs : List Byte) (e : Call Byte) (bs' : List Byte)
      (o : Answer Byte) (hrel : ∃ f, Holds r f bs)
      (hst : StreamFifo.step 8191 bs e = some (bs', o)) :
      ∃ r', r.step e = some (r', o) ∧ ∃ f', Holds r' f' bs' := by
    obtain ⟨f, hholds⟩ := hrel
    exact hholds.step hst
  obtain ⟨r, hrun, f, hholds⟩ := answers_of_simulation hsim ⟨0, holds_clear initial⟩ h
  exact ⟨r, hrun, hholds.refines⟩

/-- Six bytes come, three are looked at and two taken, six more come. -/
theorem ring_refines_fifo_twelve : ∃ r, answers CRingBuffer.step initial
    [.recv [1, 2, 3, 4, 5, 6], .peek 3, .dequeue 2, .recv [7, 8, 9, 10, 11, 12]] =
      some (r, [.done, .bytes [1, 2, 3], .count 2, .done]) ∧
    Refines r [3, 4, 5, 6, 7, 8, 9, 10, 11, 12] :=
  ring_refines_fifo (by decide)

end CRingBuffer

end NetLib
