import NetLib.Queue.Sequential
/-!
# A refused ticket

`Enqueue` takes its ticket before it looks at the cell, so a full queue that
refuses an element counts one more than it stores. What it stores comes out as
before; what is enqueued once it is empty does not come out.
-/

namespace NetLib

namespace LockFreeFixedQueue

variable {T : Type} {k h : ℕ} {q : LockFreeFixedQueue T (2 ^ k)}

/-- The queue stores `items` from ticket `h` on, and one more ticket was
taken by an `Enqueue` that was refused. -/
def Overrun (q : LockFreeFixedQueue T (2 ^ k)) (items : List T) (h : ℕ) : Prop :=
  ∃ q₀ : LockFreeFixedQueue T (2 ^ k), Holds q₀ items h ∧ q = q₀.fetchAddTail.2

/-- A full queue refuses and is overrun. -/
theorem enqueue_full_overrun (hk : k ≤ 30) {items : List T} (hq : Holds q items h)
    (hfull : items.length = 2 ^ k) (x : T) :
    q.enqueue x = some (false, q.fetchAddTail.2) ∧ Overrun q.fetchAddTail.2 items h := by
  obtain ⟨q', henq, -⟩ := enqueue_of_full hk hq hfull x
  refine ⟨?_, q, hq, rfl⟩
  have hunfold := henq
  simp only [enqueue] at hunfold
  split at hunfold
  · rw [henq, ← (Prod.mk.inj (Option.some.inj hunfold)).2]
  · split at hunfold <;> cases hunfold

/-- `Dequeue` neither reads nor writes the tail. -/
theorem dequeue_fetchAddTail (q : LockFreeFixedQueue T (2 ^ k)) :
    q.fetchAddTail.2.dequeue = q.dequeue.map fun r => (r.1, r.2.fetchAddTail.2) := by
  simp only [dequeue, fetchAddTail, loadUsed, casHead, if_true, getData, exchangeUsed, setCell]
  by_cases hu : (q.buffer (cell (2 ^ k) q.headIndex)).isUsed = true
  · rw [if_pos hu, if_pos hu, if_pos hu, if_pos hu]
    rfl
  · rw [if_neg hu, if_neg hu]
    rfl

/-- **The stored elements come out as before.** -/
theorem dequeue_overrun_cons (hk : k ≤ 30) {x : T} {items : List T}
    (hq : Overrun q (x :: items) h) :
    ∃ q', q.dequeue = some (some x, q') ∧ Overrun q' items (h + 1) := by
  obtain ⟨q₀, hq₀, rfl⟩ := hq
  obtain ⟨q', hdeq, hq'⟩ := dequeue_of_cons hk hq₀
  refine ⟨q'.fetchAddTail.2, ?_, q', hq', rfl⟩
  rw [dequeue_fetchAddTail, hdeq]
  rfl

/-- The refused ticket counts. -/
theorem size_of_overrun (hk : k ≤ 30) {items : List T} (hq : Overrun q items h) :
    q.size = (items.length : ℤ) + 1 := by
  obtain ⟨q₀, hq₀, rfl⟩ := hq
  have hlength := hq₀.length_lt hk
  have htail : q₀.tailIndex + 1 = BitVec.ofNat 32 (h + (items.length + 1)) := by
    rw [hq₀.tail, ofNat_add_one]
    rfl
  have hle := hq₀.length_le
  have := Nat.pow_le_pow_right (n := 2) (by omega) hk
  change (q₀.tailIndex + 1 - q₀.headIndex).toInt = _
  rw [htail, hq₀.head, toInt_sub_ofNat (by omega)]
  omega

/-- **With nothing stored, `Dequeue` answers so and `Size()` is one.** -/
theorem dequeue_overrun_nil (hk : k ≤ 30) (hq : Overrun q [] h) :
    q.dequeue = some (none, q) ∧ q.size = 1 := by
  refine ⟨?_, by simpa using size_of_overrun hk hq⟩
  obtain ⟨q₀, hq₀, rfl⟩ := hq
  rw [dequeue_fetchAddTail, dequeue_of_nil hk hq₀]
  rfl

/-- **What is enqueued next stays behind the refused ticket**: the cell at the
head is not used. -/
theorem enqueue_overrun_nil (hk : 1 ≤ k) (hk' : k ≤ 30) (hq : Overrun q [] h) (x : T) :
    ∃ q', q.enqueue x = some (true, q') ∧ q'.loadUsed q'.headIndex = false := by
  obtain ⟨q₀, hq₀, rfl⟩ := hq
  have hlap : 2 ^ 1 ≤ 2 ^ k := Nat.pow_le_pow_right (by omega) hk
  have htail : q₀.fetchAddTail.2.tailIndex = BitVec.ofNat 32 (h + 1) := by
    change q₀.tailIndex + 1 = _
    rw [hq₀.tail, List.length_nil, Nat.add_zero, ofNat_add_one]
  have hfree : q₀.fetchAddTail.2.loadUsed q₀.fetchAddTail.2.tailIndex = false := by
    rw [htail, loadUsed, cell_ofNat (by omega)]
    exact hq₀.unused 1 (by simp) (by omega)
  refine ⟨_, enqueue_of_unused hfree x, ?_⟩
  have hne : (h + 1) % 2 ^ k ≠ h % 2 ^ k := fun he =>
    Nat.one_ne_zero (BoundedFifo.eq_of_add_mod_eq (j := 0) (by omega) (by omega) he)
  have hhead : q₀.headIndex = BitVec.ofNat 32 h := hq₀.head
  rw [htail, loadUsed]
  change (Function.update q₀.buffer (cell (2 ^ k) (BitVec.ofNat 32 (h + 1))) _
    (cell (2 ^ k) q₀.headIndex)).isUsed = false
  rw [hhead, cell_ofNat (by omega), cell_ofNat (by omega), Function.update_of_ne hne.symm]
  exact hq₀.unused 0 le_rfl (by omega)

end LockFreeFixedQueue

end NetLib
