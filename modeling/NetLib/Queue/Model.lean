import Mathlib.Algebra.Order.Ring.Nat
import Mathlib.Logic.Function.Basic
import Mathlib.Data.Nat.Bitwise
import NetLib.Library.BoundedFifo
/-!
# `LockFreeFixedQueue`

The queue of `LockFreeFixedQueue.h`: two 32-bit indices that only grow and
wrap, and a ring of cells each with a published flag. The atomic operations
come first, one definition for each access of the source; `enqueue` and
`dequeue` compose them in the order of the source, as one thread runs them.
-/

namespace NetLib

/-- `Node`: the published flag of a cell and what it stores. -/
structure Node (T : Type) where
  isUsed : Bool
  data : T

/-- The queue. The cells are indexed by naturals; `cell` keeps every access
below `BufferSize`. -/
structure LockFreeFixedQueue (T : Type) (BufferSize : ℕ) where
  headIndex : BitVec 32
  tailIndex : BitVec 32
  buffer : ℕ → Node T

namespace LockFreeFixedQueue

variable {T : Type} {BufferSize : ℕ}

/-- `index & indexMask`, where `indexMask` is `BufferSize - 1`. -/
def cell (BufferSize : ℕ) (index : BitVec 32) : ℕ :=
  (index &&& BitVec.ofNat 32 (BufferSize - 1)).toNat

/-- The queue as constructed: both indices `0` and no cell used. -/
def empty (BufferSize : ℕ) [Inhabited T] : LockFreeFixedQueue T BufferSize :=
  ⟨0, 0, fun _ => ⟨false, default⟩⟩

/-- The queue with the node of one cell replaced. -/
def setCell (q : LockFreeFixedQueue T BufferSize) (index : BitVec 32) (node : Node T) :
    LockFreeFixedQueue T BufferSize :=
  { q with buffer := Function.update q.buffer (cell BufferSize index) node }

/-! ## Indices and cells -/

section Index

variable {k : ℕ}

/-- `indexMask` reduces an index modulo the number of cells. -/
theorem cell_ofNat (hk : k ≤ 31) (n : ℕ) : cell (2 ^ k) (BitVec.ofNat 32 n) = n % 2 ^ k := by
  have hlt : n % 2 ^ k < 2 ^ 32 :=
    (Nat.mod_lt n (Nat.two_pow_pos k)).trans_le (Nat.pow_le_pow_right (by omega) (by omega))
  rw [cell, BoundedFifo.and_mask_ofNat (by omega), BitVec.toNat_ofNat, Nat.mod_eq_of_lt hlt]

/-- The next index is the next ticket's. -/
theorem ofNat_add_one (n : ℕ) : BitVec.ofNat 32 n + 1 = BitVec.ofNat 32 (n + 1) := by
  rw [BitVec.ofNat_add]
  rfl

/-- Two indices a distance `d` apart, wherever they wrap, differ by `d` as
signed integers. -/
theorem toInt_sub_ofNat {h d : ℕ} (hd : d < 2 ^ 31) :
    (BitVec.ofNat 32 (h + d) - BitVec.ofNat 32 h).toInt = d := by
  have hsub : BitVec.ofNat 32 (h + d) - BitVec.ofNat 32 h = BitVec.ofNat 32 d := by
    rw [BitVec.ofNat_add, BitVec.add_comm, BitVec.add_sub_cancel]
  rw [hsub, BitVec.toInt_eq_toNat_of_lt] <;> rw [BitVec.toNat_ofNat, Nat.mod_eq_of_lt] <;> omega

/-- Tickets of one lap of the ring have indices of their own. -/
theorem ofNat_inj_of_lt {h i j : ℕ} (hi : h ≤ i) (hi' : i < h + 2 ^ 32) (hj : h ≤ j)
    (hj' : j < h + 2 ^ 32) (heq : BitVec.ofNat 32 i = BitVec.ofNat 32 j) : i = j := by
  have hmod := congrArg BitVec.toNat heq
  rw [BitVec.toNat_ofNat, BitVec.toNat_ofNat] at hmod
  exact BoundedFifo.eq_of_mod_eq hi hi' hj hj' hmod

/-- Tickets of one window have cells of their own. -/
theorem cell_inj_of_lt (hk : k ≤ 31) {h i j : ℕ} (hi : h ≤ i) (hi' : i < h + 2 ^ k) (hj : h ≤ j)
    (hj' : j < h + 2 ^ k)
    (heq : cell (2 ^ k) (BitVec.ofNat 32 i) = cell (2 ^ k) (BitVec.ofNat 32 j)) : i = j := by
  rw [cell_ofNat hk, cell_ofNat hk] at heq
  exact BoundedFifo.eq_of_mod_eq hi hi' hj hj' heq

end Index

/-! ## The atomic accesses -/

/-- `tailIndex.fetch_add(1)`, the ticket being the value it answers. -/
def fetchAddTail (q : LockFreeFixedQueue T BufferSize) :
    BitVec 32 × LockFreeFixedQueue T BufferSize :=
  (q.tailIndex, { q with tailIndex := q.tailIndex + 1 })

/-- `buffer[index & indexMask].isUsed.load()` -/
def loadUsed (q : LockFreeFixedQueue T BufferSize) (index : BitVec 32) : Bool :=
  (q.buffer (cell BufferSize index)).isUsed

/-- `buffer[index & indexMask].data`, read. -/
def getData (q : LockFreeFixedQueue T BufferSize) (index : BitVec 32) : T :=
  (q.buffer (cell BufferSize index)).data

/-- `buffer[index & indexMask].data`, written. -/
def putData (q : LockFreeFixedQueue T BufferSize) (index : BitVec 32) (data : T) :
    LockFreeFixedQueue T BufferSize :=
  q.setCell index { q.buffer (cell BufferSize index) with data := data }

/-- `buffer[index & indexMask].isUsed.exchange(used)` -/
def exchangeUsed (q : LockFreeFixedQueue T BufferSize) (index : BitVec 32) (used : Bool) :
    Bool × LockFreeFixedQueue T BufferSize :=
  (q.loadUsed index, q.setCell index { q.buffer (cell BufferSize index) with isUsed := used })

/-- `headIndex.compare_exchange_strong(head, head + 1)` -/
def casHead (q : LockFreeFixedQueue T BufferSize) (head : BitVec 32) :
    Bool × LockFreeFixedQueue T BufferSize :=
  if q.headIndex = head then (true, { q with headIndex := head + 1 }) else (false, q)

/-! What an access leaves behind, read cell by cell. -/

@[simp] theorem loadUsed_putData (q : LockFreeFixedQueue T BufferSize) (i j : BitVec 32) (x : T) :
    (q.putData i x).loadUsed j = q.loadUsed j := by
  simp only [loadUsed, putData, setCell, Function.update_apply]
  split
  · rename_i h; rw [h]
  · rfl

theorem getData_putData (q : LockFreeFixedQueue T BufferSize) (i j : BitVec 32) (x : T) :
    (q.putData i x).getData j =
      if cell BufferSize j = cell BufferSize i then x else q.getData j := by
  simp only [getData, putData, setCell, Function.update_apply]
  split <;> rfl

theorem loadUsed_exchangeUsed (q : LockFreeFixedQueue T BufferSize) (i j : BitVec 32) (u : Bool) :
    (q.exchangeUsed i u).2.loadUsed j =
      if cell BufferSize j = cell BufferSize i then u else q.loadUsed j := by
  simp only [loadUsed, exchangeUsed, setCell, Function.update_apply]
  split <;> rfl

@[simp] theorem getData_exchangeUsed (q : LockFreeFixedQueue T BufferSize) (i j : BitVec 32)
    (u : Bool) : (q.exchangeUsed i u).2.getData j = q.getData j := by
  simp only [getData, exchangeUsed, setCell, Function.update_apply]
  split
  · rename_i h; rw [h]
  · rfl

/-! ## The member functions, run by one thread -/

/-- `Size`: the difference of the two indices, as a signed `int`. -/
def size (q : LockFreeFixedQueue T BufferSize) : ℤ :=
  (q.tailIndex - q.headIndex).toInt

/-- `Enqueue`. The answer is `none` where the source breaks into the
debugger. -/
def enqueue (q : LockFreeFixedQueue T BufferSize) (data : T) :
    Option (Bool × LockFreeFixedQueue T BufferSize) :=
  let (tail, q) := q.fetchAddTail
  if q.loadUsed tail then some (false, q)
  else
    let (used, q) := (q.putData tail data).exchangeUsed tail true
    if used then none else some (true, q)

/-- `Dequeue`. With no other thread running the compare-exchange succeeds
at its first try, so the loop of the source is one round; `none` is the
break into the debugger. -/
def dequeue (q : LockFreeFixedQueue T BufferSize) :
    Option (Option T × LockFreeFixedQueue T BufferSize) :=
  let head := q.headIndex
  if q.loadUsed head then
    let (_, q) := q.casHead head
    let data := q.getData head
    let (used, q) := q.exchangeUsed head false
    if used then some (some data, q) else none
  else some (none, q)

/-- One call, with its answer. -/
def apply (q : LockFreeFixedQueue T BufferSize) :
    BoundedFifo.Call T → Option (BoundedFifo.Answer T × LockFreeFixedQueue T BufferSize)
  | .enqueue x => (q.enqueue x).map fun r => (.accepted r.1, r.2)
  | .dequeue => q.dequeue.map fun r => (.removed r.1, r.2)

/-- What a caller sees of a sequence of calls made one after another: each
answer, with `Size()` after it. -/
def observe (q : LockFreeFixedQueue T BufferSize) :
    List (BoundedFifo.Call T) → Option (List (BoundedFifo.Answer T × ℤ))
  | [] => some []
  | c :: cs => do
    let (a, q) ← q.apply c
    let rest ← q.observe cs
    some ((a, q.size) :: rest)

end LockFreeFixedQueue

end NetLib
