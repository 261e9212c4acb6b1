import Mathlib.Algebra.Order.Ring.Int
import NetLib.Queue.Model
/-!
# `LockBasedFixedQueue`

The queue of `LockQueue.h`: a ring behind one lock, with two signed 32-bit
indices that only grow and wrap. Every call runs under the lock, so calls are
made one after another.

The size is the difference of the indices, and where `tailIndex` is below
`headIndex` it is computed as if they were places in the ring. `tailIndex` is
below `headIndex` only when it has wrapped and `headIndex` has not, and then
the difference itself, which wraps too, would have been right.
-/

namespace NetLib

/-- The queue. The cells are indexed by naturals; `cell` keeps every access
below `BufferSize`. -/
structure LockBasedFixedQueue (T : Type) (BufferSize : ℕ) where
  buffer : ℕ → T
  headIndex : BitVec 32
  tailIndex : BitVec 32

namespace LockBasedFixedQueue

open BoundedFifo
open LockFreeFixedQueue (cell cell_ofNat)

variable {T : Type} {BufferSize : ℕ}

/-- The queue as constructed. -/
def empty (BufferSize : ℕ) [Inhabited T] : LockBasedFixedQueue T BufferSize :=
  ⟨fun _ => default, 0, 0⟩

/-- `size`, and `Size` under the lock. The indices are compared as signed. -/
def size (q : LockBasedFixedQueue T BufferSize) : BitVec 32 :=
  if q.headIndex.sle q.tailIndex then q.tailIndex - q.headIndex
  else BitVec.ofNat 32 BufferSize - (q.headIndex - q.tailIndex)

/-- `Enqueue` -/
def enqueue (q : LockBasedFixedQueue T BufferSize) (data : T) :
    Bool × LockBasedFixedQueue T BufferSize :=
  if (BitVec.ofNat 32 BufferSize).sle q.size then (false, q)
  else (true, { q with
    buffer := Function.update q.buffer (cell BufferSize q.tailIndex) data
    tailIndex := q.tailIndex + 1 })

/-- `Dequeue` -/
def dequeue (q : LockBasedFixedQueue T BufferSize) :
    Option T × LockBasedFixedQueue T BufferSize :=
  if q.size = 0 then (none, q)
  else (some (q.buffer (cell BufferSize q.headIndex)), { q with headIndex := q.headIndex + 1 })

/-- One call, with its answer. -/
def apply (q : LockBasedFixedQueue T BufferSize) :
    Call T → Answer T × LockBasedFixedQueue T BufferSize
  | .enqueue x => (.accepted (q.enqueue x).1, (q.enqueue x).2)
  | .dequeue => (.removed q.dequeue.1, q.dequeue.2)

/-- The queue after a sequence of calls. -/
def run (q : LockBasedFixedQueue T BufferSize) (calls : List (Call T)) :
    LockBasedFixedQueue T BufferSize :=
  calls.foldl (fun q c => (q.apply c).2) q

/-! ## What the queue is for -/

/-- The call failed. -/
def Refused (a : Answer T) : Prop := a = .accepted false ∨ a = .removed none

/-- Every call answers like a FIFO of `BufferSize` elements that stores
`items`, leaves the queue alone if it fails, and `Size()` after it is the
number of elements stored. -/
def Behaves (q : LockBasedFixedQueue T BufferSize) (items : List T) : List (Call T) → Prop
  | [] => True
  | c :: calls => (q.apply c).1 = (BoundedFifo.apply BufferSize items c).1 ∧
    (Refused (q.apply c).1 → (q.apply c).2 = q) ∧
    (q.apply c).2.size.toInt = (BoundedFifo.apply BufferSize items c).2.length ∧
    Behaves (q.apply c).2 (BoundedFifo.apply BufferSize items c).2 calls

/-- After `h` elements that went through the queue and with `n` stored,
`tailIndex` has wrapped and `headIndex` has not. -/
def Wrapped (h n : ℕ) : Prop := 2 ^ 32 ≤ (h + 2 ^ 31) % 2 ^ 32 + n

instance (h n : ℕ) : Decidable (Wrapped h n) := inferInstanceAs (Decidable (_ ≤ _))

/-! ## What the queue holds -/

/-- The queue stores `items`, oldest first; `h` elements went through it
before. -/
structure Holds {k : ℕ} (q : LockBasedFixedQueue T (2 ^ k)) (items : List T) (h : ℕ) : Prop where
  head : q.headIndex = BitVec.ofNat 32 h
  tail : q.tailIndex = BitVec.ofNat 32 (h + items.length)
  le : items.length ≤ 2 ^ k
  cells : Cells (2 ^ k) q.buffer items h

variable {k h n : ℕ} {q : LockBasedFixedQueue T (2 ^ k)} {items : List T} {x : T}

theorem Holds.empty [Inhabited T] : (empty (2 ^ k) : LockBasedFixedQueue T (2 ^ k)).Holds [] 0 :=
  ⟨rfl, rfl, Nat.zero_le _, fun j x hj => by simp at hj⟩

theorem two_pow_le (hk : k ≤ 30) : 2 ^ k ≤ 2 ^ 30 := Nat.pow_le_pow_right (by omega) hk

/-- The indices compare as their numbers do until one has wrapped. -/
theorem sle_iff_not_wrapped (hn : n < 2 ^ 32) :
    (BitVec.ofNat 32 h).sle (BitVec.ofNat 32 (h + n)) = true ↔ ¬Wrapped h n := by
  rw [BitVec.sle_eq_decide, decide_eq_true_eq, Wrapped, BitVec.toInt_ofNat',
    BitVec.toInt_ofNat', Int.bmod_def, Int.bmod_def]
  push_cast
  split <;> split <;> omega

/-- **What `Size()` answers**: where one index has wrapped and the other has
not, it counts the whole buffer in. -/
theorem Holds.size_eq (hk : k ≤ 30) (hq : q.Holds items h) : q.size =
    BitVec.ofNat 32 (if Wrapped h items.length then 2 ^ k + items.length else items.length) := by
  have hle := hq.le
  have hpow := two_pow_le hk
  have hsle := sle_iff_not_wrapped (h := h) (show items.length < 2 ^ 32 by omega)
  rw [size, hq.head, hq.tail]
  by_cases hw : Wrapped h items.length
  · rw [if_neg (fun hs => hsle.1 hs hw), if_pos hw, BitVec.ofNat_add, BitVec.ofNat_add]
    grind
  · rw [if_pos (hsle.2 hw), if_neg hw, BitVec.ofNat_add, BitVec.add_comm, BitVec.add_sub_cancel]

/-- **And when that is the number of the elements stored.** -/
theorem Holds.size_toInt_iff (hk : k ≤ 30) (hq : q.Holds items h) :
    q.size.toInt = items.length ↔ ¬Wrapped h items.length := by
  have hle := hq.le
  have hpow := two_pow_le hk
  have hpos := Nat.two_pow_pos k
  rw [hq.size_eq hk, BitVec.toInt_ofNat', Int.bmod_def]
  by_cases hw : Wrapped h items.length
  · rw [if_pos hw]
    refine iff_of_false ?_ (not_not_intro hw)
    split <;> omega
  · rw [if_neg hw]
    refine iff_of_true ?_ hw
    split <;> omega

/-- The bound of the ring is met where all cells are in use. -/
theorem Holds.full_iff (hk : k ≤ 30) (hq : q.Holds items h) (hw : ¬Wrapped h items.length) :
    (BitVec.ofNat 32 (2 ^ k)).sle q.size = true ↔ items.length = 2 ^ k := by
  have hle := hq.le
  have hpow := two_pow_le hk
  rw [BitVec.sle_eq_decide, decide_eq_true_eq, (hq.size_toInt_iff hk).2 hw, BitVec.toInt_ofNat',
    Int.bmod_def]
  split <;> omega

theorem Holds.empty_iff (hk : k ≤ 30) (hq : q.Holds items h) (hw : ¬Wrapped h items.length) :
    q.size = 0 ↔ items = [] := by
  have hsize := (hq.size_toInt_iff hk).2 hw
  rw [← List.length_eq_zero_iff]
  constructor
  · intro hzero
    rw [hzero] at hsize
    exact Int.natCast_eq_zero.1 hsize.symm
  · intro hzero
    rw [hzero] at hsize
    exact BitVec.eq_of_toInt_eq hsize

/-- **With room, `Enqueue` appends.** -/
theorem Holds.enqueue (hk : k ≤ 30) (hq : q.Holds items h) (hw : ¬Wrapped h items.length)
    (hroom : items.length < 2 ^ k) (x : T) :
    (q.enqueue x).1 = true ∧ (q.enqueue x).2.Holds (items ++ [x]) h := by
  have hfull : ¬(BitVec.ofNat 32 (2 ^ k)).sle q.size = true := by
    rw [hq.full_iff hk hw]
    omega
  rw [LockBasedFixedQueue.enqueue, if_neg hfull]
  refine ⟨rfl, hq.head, ?_, ?_, ?_⟩
  · change q.tailIndex + 1 = _
    rw [hq.tail, List.length_append, List.length_singleton, ← Nat.add_assoc]
    exact (BitVec.ofNat_add ..).symm
  · rw [List.length_append, List.length_singleton]
    omega
  · change Cells _ (Function.update q.buffer (cell (2 ^ k) q.tailIndex) x) _ _
    rw [hq.tail, cell_ofNat (by omega)]
    exact hq.cells.push hroom x

/-- A full queue refuses, and nothing has changed. -/
theorem Holds.enqueue_full (hk : k ≤ 30) (hq : q.Holds items h) (hw : ¬Wrapped h items.length)
    (hfull : items.length = 2 ^ k) (x : T) : q.enqueue x = (false, q) := by
  rw [LockBasedFixedQueue.enqueue, if_pos ((hq.full_iff hk hw).2 hfull)]

/-- **`Dequeue` removes the oldest**, also where `tailIndex` has wrapped. -/
theorem Holds.dequeue (hk : k ≤ 30) (hq : q.Holds (x :: items) h) :
    q.dequeue.1 = some x ∧ q.dequeue.2.Holds items (h + 1) := by
  have hle := hq.le
  have hpow := two_pow_le hk
  rw [List.length_cons] at hle
  have hne : ¬q.size = 0 := by
    rw [hq.size_eq hk, List.length_cons]
    intro hzero
    have := congrArg BitVec.toNat hzero
    rw [BitVec.toNat_ofNat] at this
    change _ = 0 at this
    split at this <;> omega
  rw [LockBasedFixedQueue.dequeue, if_neg hne]
  refine ⟨?_, ?_, ?_, ?_, hq.cells.pop⟩
  · rw [hq.head, cell_ofNat (by omega), hq.cells.oldest]
  · change q.headIndex + 1 = _
    rw [hq.head]
    exact (BitVec.ofNat_add ..).symm
  · change q.tailIndex = _
    rw [hq.tail, List.length_cons]
    congr 1
    omega
  · omega

/-- An empty queue answers that nothing is stored. -/
theorem Holds.dequeue_nil (hk : k ≤ 30) (hq : q.Holds [] h) : q.dequeue = (none, q) := by
  have hw : ¬Wrapped h ([] : List T).length := by
    rw [Wrapped, List.length_nil]
    omega
  rw [LockBasedFixedQueue.dequeue, if_pos ((hq.empty_iff hk hw).2 rfl)]

/-- Where `tailIndex` has wrapped alone, `Enqueue` refuses with room to spare. -/
theorem Holds.enqueue_wrapped (hk : k ≤ 30) (hq : q.Holds items h) (hw : Wrapped h items.length)
    (hroom : items.length < 2 ^ k) (x : T) : q.enqueue x = (false, q) := by
  have hpow := two_pow_le hk
  have hfull : (BitVec.ofNat 32 (2 ^ k)).sle q.size = true := by
    rw [hq.size_eq hk, if_pos hw, BitVec.sle_eq_decide, decide_eq_true_eq, BitVec.toInt_ofNat',
      BitVec.toInt_ofNat', Int.bmod_def, Int.bmod_def]
    split <;> split <;> omega
  rw [LockBasedFixedQueue.enqueue, if_pos hfull]

/-! ## Sequences of calls -/

/-- Before the first wrap every call is the FIFO's. -/
theorem Holds.apply (hk : k ≤ 30) (hq : q.Holds items h) (hw : ¬Wrapped h items.length)
    (c : Call T) : (q.apply c).1 = (BoundedFifo.apply (2 ^ k) items c).1 ∧
      (Refused (q.apply c).1 → (q.apply c).2 = q) ∧
      ∃ h', (q.apply c).2.Holds (BoundedFifo.apply (2 ^ k) items c).2 h' ∧
        h' + (BoundedFifo.apply (2 ^ k) items c).2.length =
          h + items.length + accepted (2 ^ k) items.length [c] := by
  cases c with
  | enqueue x =>
    by_cases hroom : items.length < 2 ^ k
    · obtain ⟨hok, hq'⟩ := hq.enqueue hk hw hroom x
      simp only [LockBasedFixedQueue.apply, BoundedFifo.apply, accepted, if_pos hroom, hok]
      refine ⟨trivial, fun hr => ?_, h, hq', ?_⟩
      · rcases hr with hr | hr <;> cases hr
      · rw [List.length_append, List.length_singleton]
        omega
    · have hfull := hq.enqueue_full hk hw (le_antisymm hq.le (Nat.not_lt.1 hroom)) x
      simp only [LockBasedFixedQueue.apply, BoundedFifo.apply, accepted, if_neg hroom, hfull]
      exact ⟨trivial, fun _ => trivial, h, hq, rfl⟩
  | dequeue =>
    cases items with
    | nil =>
      simp only [LockBasedFixedQueue.apply, BoundedFifo.apply, accepted, hq.dequeue_nil hk]
      exact ⟨rfl, fun _ => trivial, h, hq, rfl⟩
    | cons x items =>
      obtain ⟨hx, hq'⟩ := hq.dequeue hk
      simp only [LockBasedFixedQueue.apply, BoundedFifo.apply, accepted, hx]
      refine ⟨rfl, fun hr => ?_, h + 1, hq', ?_⟩
      · rcases hr with hr | hr <;> cases hr
      · rw [List.tail_cons, List.length_cons]
        omega

theorem Holds.keepsTo_iff (hk : k ≤ 30) (calls : List (Call T)) :
    ∀ {q : LockBasedFixedQueue T (2 ^ k)} {items : List T} {h : ℕ}, q.Holds items h →
      h + items.length < 2 ^ 31 → (q.Behaves items calls ↔
        h + items.length + accepted (2 ^ k) items.length calls < 2 ^ 31) := by
  induction calls with
  | nil =>
    intro q items h _ hlt
    rw [accepted, Nat.add_zero]
    exact iff_of_true trivial hlt
  | cons c calls ih =>
    intro q items h hq hlt
    have hw : ¬Wrapped h items.length := by
      rw [Wrapped]
      omega
    obtain ⟨hanswer, hsame, h', hq', hcount⟩ := hq.apply hk hw c
    have hone := accepted_singleton_le (2 ^ k) items c
    rw [accepted_cons, ← Nat.add_assoc, ← hcount, Behaves, and_iff_right hanswer,
      and_iff_right hsame, hq'.size_toInt_iff hk]
    by_cases hlt' : h' + (BoundedFifo.apply (2 ^ k) items c).2.length < 2 ^ 31
    · refine (and_iff_right ?_).trans (ih hq' hlt')
      rw [Wrapped]
      omega
    · -- the element that has just found room is the one that wraps `tailIndex`
      refine iff_of_false (fun hb => hb.1 ?_) (by omega)
      rw [Wrapped]
      omega

/-- **The queue is a bounded FIFO if and only if** fewer than `2^31` of the
elements offered to it find room. -/
theorem lockBased_behaves_iff [Inhabited T] (hk : k ≤ 30) (calls : List (Call T)) :
    (empty (2 ^ k)).Behaves [] calls ↔ accepted (2 ^ k) 0 calls < 2 ^ 31 := by
  have h := (Holds.empty (T := T) (k := k)).keepsTo_iff hk calls (Nat.two_pow_pos 31)
  rwa [List.length_nil, Nat.add_zero, Nat.zero_add] at h

/-- Four elements through a queue of two, one of them refused, and one call
with nothing stored. -/
theorem lockBased_behaves_iff_four : (empty (2 ^ 1)).Behaves []
    [.enqueue 1, .enqueue 2, .enqueue 3, .dequeue, .enqueue 4, .dequeue, .dequeue, .dequeue] :=
  (lockBased_behaves_iff (by decide) _).2 (by decide)

/-! ## The first wrap -/

theorem run_enqueue (q : LockBasedFixedQueue T BufferSize) (x : T) (calls : List (Call T)) :
    q.run (.enqueue x :: calls) = (q.enqueue x).2.run calls := rfl

theorem run_dequeue (q : LockBasedFixedQueue T BufferSize) (calls : List (Call T)) :
    q.run (.dequeue :: calls) = q.dequeue.2.run calls := rfl

theorem run_concat (q : LockBasedFixedQueue T BufferSize) (calls : List (Call T)) (c : Call T) :
    q.run (calls ++ [c]) = ((q.run calls).apply c).2 := by
  rw [run, run, List.foldl_append]
  rfl

/-- `n` elements, each removed before the next is stored. -/
def oneByOne (x : T) : ℕ → List (Call T)
  | 0 => []
  | n + 1 => .enqueue x :: .dequeue :: oneByOne x n

theorem accepted_oneByOne (hpos : 0 < n) (m : ℕ) (calls : List (Call T)) :
    accepted n 0 (oneByOne x m ++ calls) = m + accepted n 0 calls := by
  induction m with
  | zero =>
    rw [oneByOne, List.nil_append]
    omega
  | succ m ih =>
    rw [oneByOne, List.cons_append, List.cons_append, accepted, if_pos hpos, accepted,
      Nat.add_sub_cancel, ih]
    omega

theorem Holds.run_oneByOne (hk : k ≤ 30) (m : ℕ) :
    ∀ {q : LockBasedFixedQueue T (2 ^ k)} {h : ℕ}, q.Holds [] h →
      (q.run (oneByOne x m)).Holds [] (h + m) := by
  induction m with
  | zero => exact id
  | succ m ih =>
    intro q h hq
    have hw : ¬Wrapped h ([] : List T).length := by
      rw [Wrapped, List.length_nil]
      omega
    have hmore := (hq.enqueue hk hw (Nat.two_pow_pos k) x).2
    rw [List.nil_append] at hmore
    have hlap := ih (hmore.dequeue hk).2
    rw [show h + (m + 1) = h + 1 + m by omega, oneByOne, run_enqueue, run_dequeue]
    exact hlap

/-- After `m` elements one by one, and another one. -/
theorem holds_oneByOne [Inhabited T] (hk : k ≤ 30) (m : ℕ) (x y : T) :
    ((empty (2 ^ k)).run (oneByOne x m ++ [.enqueue y])).Holds [y] m := by
  have hw : ¬Wrapped (0 + m) ([] : List T).length := by
    rw [Wrapped, List.length_nil]
    omega
  have hmore := (((Holds.empty (T := T)).run_oneByOne (x := x) hk m).enqueue hk hw
    (Nat.two_pow_pos k) y).2
  rw [List.nil_append, Nat.zero_add] at hmore
  rw [run_concat]
  exact hmore

/-- **The queue refuses with room to spare.** After `2^31 - 1` elements have
gone through a queue of two one by one, the next one wraps `tailIndex` to
`-2^31`. It is the only element stored, `Size()` answers 3, and `Enqueue`
fails. -/
theorem wrapped_refuses : ∃ q : LockBasedFixedQueue ℕ (2 ^ 1),
    q = (empty (2 ^ 1)).run (oneByOne 0 (2 ^ 31 - 1) ++ [.enqueue 0]) ∧
      q.headIndex.toInt = 2 ^ 31 - 1 ∧ q.tailIndex.toInt = -2 ^ 31 ∧ q.size.toInt = 3 ∧
      q.enqueue 1 = (false, q) ∧ q.dequeue.1 = some 0 ∧ q.dequeue.2.dequeue.1 = none ∧
      ¬∀ calls : List (Call ℕ), (empty (2 ^ 1)).Behaves [] calls := by
  have hk : 1 ≤ 30 := by decide
  have hw : Wrapped (2 ^ 31 - 1) [0].length := by decide
  have hq := holds_oneByOne hk (2 ^ 31 - 1) 0 0
  obtain ⟨hx, hq'⟩ := hq.dequeue hk
  refine ⟨_, rfl, ?_, ?_, ?_, hq.enqueue_wrapped hk hw (by decide) 1, hx, ?_, fun hall => ?_⟩
  · rw [hq.head]
    rfl
  · rw [hq.tail]
    rfl
  · rw [hq.size_eq hk, if_pos hw]
    rfl
  · rw [hq'.dequeue_nil hk]
  · have hlt := (Holds.empty.keepsTo_iff hk _ (by decide)).1
      (hall (oneByOne 0 (2 ^ 31 - 1) ++ [.enqueue 0]))
    rw [List.length_nil, accepted_oneByOne (by decide)] at hlt
    exact absurd hlt (by decide)

end LockBasedFixedQueue

end NetLib
