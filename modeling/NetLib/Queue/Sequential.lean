import NetLib.Queue.Model
/-!
# `LockFreeFixedQueue` as a bounded FIFO

One thread, calls made one after another. `Holds` says which elements a
queue stores and from which ticket on; each call is read off it, and the
answers are those of a FIFO of the same capacity exactly as long as no
element is offered to a full queue. `enqueue` takes its ticket before it
looks at the cell, so a refusal already moves `tailIndex`.
-/

namespace NetLib

namespace LockFreeFixedQueue

open BoundedFifo

variable {T : Type} {k : ℕ}

/-- The queue stores `items`, oldest first, under the tickets from `h` on.
The indices are those tickets modulo `2^32`. -/
structure Holds (q : LockFreeFixedQueue T (2 ^ k)) (items : List T) (h : ℕ) : Prop where
  head : q.headIndex = BitVec.ofNat 32 h
  tail : q.tailIndex = BitVec.ofNat 32 (h + items.length)
  length_le : items.length ≤ 2 ^ k
  stored : ∀ j x, items[j]? = some x → q.buffer ((h + j) % 2 ^ k) = ⟨true, x⟩
  unused : ∀ j, items.length ≤ j → j < 2 ^ k → (q.buffer ((h + j) % 2 ^ k)).isUsed = false

theorem holds_empty [Inhabited T] : Holds (empty (T := T) (2 ^ k)) [] 0 where
  head := rfl
  tail := rfl
  length_le := Nat.zero_le _
  stored := fun _ _ h => by simp at h
  unused := fun _ _ _ => rfl

theorem cells_iff {buffer : ℕ → Node T} {items : List T} {h : ℕ} :
    Cells (2 ^ k) buffer (items.map (⟨true, ·⟩)) h ↔
      ∀ j x, items[j]? = some x → buffer ((h + j) % 2 ^ k) = ⟨true, x⟩ := by
  simp only [Cells, List.getElem?_map, Option.map_eq_some_iff]
  constructor
  · exact fun hc j x hx => hc j _ ⟨x, hx, rfl⟩
  · rintro hc j _ ⟨x, hx, rfl⟩
    exact hc j x hx

/-- A bound on the capacity bounds the number of stored elements. -/
theorem Holds.length_lt (hk : k ≤ 30) {q : LockFreeFixedQueue T (2 ^ k)} {items : List T} {h : ℕ}
    (hq : Holds q items h) : items.length < 2 ^ 31 := by
  have := Nat.pow_le_pow_right (n := 2) (by omega) hk
  have := hq.length_le
  omega

/-- **`Size()` counts the stored elements.** -/
theorem size_of_holds (hk : k ≤ 30) {q : LockFreeFixedQueue T (2 ^ k)} {items : List T} {h : ℕ}
    (hq : Holds q items h) : q.size = items.length := by
  rw [size, hq.head, hq.tail]
  exact toInt_sub_ofNat (hq.length_lt hk)

/-- `Enqueue` on an unused cell: the element goes in and is published. -/
theorem enqueue_of_unused {q : LockFreeFixedQueue T (2 ^ k)} (h : q.loadUsed q.tailIndex = false)
    (x : T) :
    q.enqueue x =
      some (true, { q with tailIndex := q.tailIndex + 1 }.setCell q.tailIndex ⟨true, x⟩) := by
  simp only [loadUsed] at h
  simp only [enqueue, fetchAddTail, loadUsed, h, putData, exchangeUsed, setCell,
    Function.update_self, Function.update_idem, Bool.false_eq_true, if_false]

/-- `Dequeue` on a published cell: the element comes out and the cell is
free. -/
theorem dequeue_of_used {q : LockFreeFixedQueue T (2 ^ k)} {x : T}
    (h : q.buffer (cell (2 ^ k) q.headIndex) = ⟨true, x⟩) :
    q.dequeue =
      some (some x, { q with headIndex := q.headIndex + 1 }.setCell q.headIndex ⟨false, x⟩) := by
  simp only [dequeue, loadUsed, h, casHead, getData, exchangeUsed, setCell, if_true]

/-- **With room, `Enqueue` appends.** The ticket it takes is the first one
past the stored elements, and its cell is free. -/
theorem enqueue_of_room (hk : k ≤ 30) {q : LockFreeFixedQueue T (2 ^ k)} {items : List T} {h : ℕ}
    (hq : Holds q items h) (hroom : items.length < 2 ^ k) (x : T) :
    ∃ q', q.enqueue x = some (true, q') ∧ Holds q' (items ++ [x]) h := by
  have hcell : cell (2 ^ k) q.tailIndex = (h + items.length) % 2 ^ k := by
    rw [hq.tail, cell_ofNat (by omega)]
  have hfree : (q.buffer (cell (2 ^ k) q.tailIndex)).isUsed = false := by
    rw [hcell]; exact hq.unused _ le_rfl hroom
  refine ⟨_, enqueue_of_unused hfree x, ?head, ?tail, ?length_le, ?stored, ?unused⟩
  case head => exact hq.head
  case tail =>
    simp only [setCell, hq.tail, List.length_append, List.length_singleton, ofNat_add_one,
      Nat.add_assoc]
  case length_le => simp only [List.length_append, List.length_singleton]; omega
  case stored =>
    have hpush := (cells_iff.2 hq.stored).push (by simpa using hroom) ⟨true, x⟩
    rw [List.length_map] at hpush
    simp only [setCell, hcell]
    refine cells_iff.1 ?_
    rwa [List.map_append]
  case unused =>
    intro j hj hj'
    simp only [List.length_append, List.length_singleton] at hj
    simp only [setCell, hcell]
    have hne : (h + j) % 2 ^ k ≠ (h + items.length) % 2 ^ k := fun he => by
      have := eq_of_add_mod_eq hj' hroom he
      omega
    rw [Function.update_of_ne hne]
    exact hq.unused j (by omega) hj'

/-- **A full queue refuses, and its tail has moved all the same**: `Size()`
is one more than what is stored. -/
theorem enqueue_of_full (hk : k ≤ 30) {q : LockFreeFixedQueue T (2 ^ k)} {items : List T} {h : ℕ}
    (hq : Holds q items h) (hfull : items.length = 2 ^ k) (x : T) :
    ∃ q', q.enqueue x = some (false, q') ∧ q'.size = (items.length : ℤ) + 1 := by
  have hpos : 0 < 2 ^ k := Nat.two_pow_pos k
  obtain ⟨y, hy⟩ : ∃ y, items[0]? = some y := ⟨items[0], List.getElem?_eq_getElem (by omega)⟩
  have hcell : cell (2 ^ k) q.tailIndex = (h + 0) % 2 ^ k := by
    rw [hq.tail, cell_ofNat (by omega), hfull, Nat.add_mod_right, Nat.add_zero]
  have hused : (q.buffer (cell (2 ^ k) q.tailIndex)).isUsed = true := by
    rw [hcell, hq.stored 0 y hy]
  refine ⟨{ q with tailIndex := q.tailIndex + 1 }, ?_, ?_⟩
  · simp only [enqueue, fetchAddTail, loadUsed, hused, if_true]
  · have htail : q.tailIndex + 1 = BitVec.ofNat 32 (h + (items.length + 1)) := by
      rw [hq.tail, ofNat_add_one, Nat.add_assoc]
    have hlt := Nat.pow_le_pow_right (n := 2) (by omega) hk
    simp only [size, hq.head, htail]
    rw [toInt_sub_ofNat (by omega)]
    simp

/-- **`Dequeue` removes the oldest element.** -/
theorem dequeue_of_cons (hk : k ≤ 30) {q : LockFreeFixedQueue T (2 ^ k)} {x : T} {items : List T}
    {h : ℕ} (hq : Holds q (x :: items) h) :
    ∃ q', q.dequeue = some (some x, q') ∧ Holds q' items (h + 1) := by
  have hcell : cell (2 ^ k) q.headIndex = h % 2 ^ k := by rw [hq.head, cell_ofNat (by omega)]
  have hnode : q.buffer (cell (2 ^ k) q.headIndex) = ⟨true, x⟩ := by
    rw [hcell]; exact hq.stored 0 x rfl
  have hlen := hq.length_le
  simp only [List.length_cons] at hlen
  refine ⟨_, dequeue_of_used hnode, ?head, ?tail, ?length_le, ?stored, ?unused⟩
  case head => simp only [setCell, hq.head, ofNat_add_one]
  case tail =>
    simp only [setCell, hq.tail, List.length_cons]
    congr 1
    omega
  case length_le => omega
  case stored =>
    have hpop := (cells_iff.2 hq.stored).pop_update (by rw [List.length_map]; omega) ⟨false, x⟩
    simp only [setCell, hcell]
    exact cells_iff.1 hpop
  case unused =>
    intro j hj hj'
    simp only [setCell, hcell]
    rcases Nat.lt_or_ge (j + 1) (2 ^ k) with hlt | hge
    · rw [Nat.add_assoc, Nat.add_comm 1 j]
      have hne : (h + (j + 1)) % 2 ^ k ≠ h % 2 ^ k := fun he =>
        j.succ_ne_zero (eq_of_add_mod_eq (h := h) hlt (by omega) he)
      rw [Function.update_of_ne hne]
      exact hq.unused (j + 1) (by simp only [List.length_cons]; omega) hlt
    · -- the cell one lap ahead of the new head is the one just released
      have he : h + 1 + j = h + 2 ^ k := by omega
      rw [he, Nat.add_mod_right, Function.update_self]

/-- An empty queue answers that nothing is stored, and is left as it was. -/
theorem dequeue_of_nil (hk : k ≤ 30) {q : LockFreeFixedQueue T (2 ^ k)} {h : ℕ}
    (hq : Holds q [] h) : q.dequeue = some (none, q) := by
  have hunused : (q.buffer (cell (2 ^ k) q.headIndex)).isUsed = false := by
    rw [hq.head, cell_ofNat (by omega)]
    exact hq.unused 0 le_rfl (Nat.two_pow_pos k)
  simp only [dequeue, loadUsed, hunused, Bool.false_eq_true, if_false]

/-- **One call, where the queue is not full**: the FIFO's answer, and the
FIFO's contents after it. -/
theorem apply_of_holds (hk : k ≤ 30) {q : LockFreeFixedQueue T (2 ^ k)} {items : List T} {h : ℕ}
    (hq : Holds q items h) {c : Call T} (hc : ∀ x, c = .enqueue x → items.length < 2 ^ k) :
    ∃ q' h', q.apply c = some ((BoundedFifo.apply (2 ^ k) items c).1, q') ∧
      Holds q' (BoundedFifo.apply (2 ^ k) items c).2 h' := by
  cases c with
  | enqueue x =>
    have hroom := hc x rfl
    obtain ⟨q', heq, hq'⟩ := enqueue_of_room hk hq hroom x
    refine ⟨q', h, ?_, ?_⟩
    · simp only [apply, heq, Option.map_some, BoundedFifo.apply, if_pos hroom]
    · simpa only [BoundedFifo.apply, if_pos hroom] using hq'
  | dequeue =>
    cases items with
    | nil => exact ⟨q, h, by simp [apply, dequeue_of_nil hk hq, BoundedFifo.apply], hq⟩
    | cons x items =>
      obtain ⟨q', heq, hq'⟩ := dequeue_of_cons hk hq
      exact ⟨q', h + 1, by simp [apply, heq, BoundedFifo.apply], hq'⟩

/-- **The FIFO's observations, from any stored contents, exactly when every
offered element fits.** A refusal shows at once: the refused ticket counts
in `Size()`. -/
theorem observe_of_holds (hk : k ≤ 30) (cs : List (Call T)) :
    ∀ {q : LockFreeFixedQueue T (2 ^ k)} {items : List T} {h : ℕ}, Holds q items h →
      (q.observe cs = some (BoundedFifo.observe (2 ^ k) items cs) ↔
        OffersFit (2 ^ k) items.length cs) := by
  induction cs with
  | nil => intro q items h _; simp [observe, BoundedFifo.observe, OffersFit]
  | cons c cs ih =>
    intro q items h hq
    by_cases hc : ∀ x, c = .enqueue x → items.length < 2 ^ k
    · obtain ⟨q', h', heq, hq'⟩ := apply_of_holds hk hq hc
      have hiff := ih hq'
      have hfit : OffersFit (2 ^ k) items.length (c :: cs) ↔
          OffersFit (2 ^ k) (BoundedFifo.apply (2 ^ k) items c).2.length cs := by
        cases c with
        | enqueue x =>
          have hroom := hc x rfl
          simp [OffersFit, BoundedFifo.apply, hroom]
        | dequeue => simp [OffersFit, BoundedFifo.apply]
      rw [hfit, ← hiff]
      simp only [observe, heq, Option.bind_eq_bind, Option.bind_some, size_of_holds hk hq',
        BoundedFifo.observe]
      cases q'.observe cs <;> simp
    · push Not at hc
      obtain ⟨x, rfl, hfull⟩ := hc
      have hfull' : items.length = 2 ^ k := le_antisymm hq.length_le hfull
      obtain ⟨q', heq, hsize⟩ := enqueue_of_full hk hq hfull' x
      have hno : ¬ OffersFit (2 ^ k) items.length (.enqueue x :: cs) := fun hf => by
        have := hf.1
        omega
      refine iff_of_false ?_ hno
      simp only [observe, apply, heq, Option.map_some, Option.bind_eq_bind, Option.bind_some, hsize,
        BoundedFifo.observe, BoundedFifo.apply, if_neg (not_lt.2 hfull)]
      cases q'.observe cs <;> simp

/-- **The queue is a bounded FIFO exactly for the call sequences that never
offer an element to a full queue.** -/
theorem observe_empty_iff [Inhabited T] (hk : k ≤ 30) (cs : List (Call T)) :
    (empty (T := T) (2 ^ k)).observe cs = some (BoundedFifo.observe (2 ^ k) [] cs) ↔
      OffersFit (2 ^ k) 0 cs :=
  observe_of_holds hk cs holds_empty

/-- On a queue of two cells that is filled and emptied twice over. -/
theorem observe_empty_laps :
    (empty (T := ℕ) (2 ^ 1)).observe [.enqueue 1, .enqueue 2, .dequeue, .enqueue 3, .dequeue] =
      some (BoundedFifo.observe (2 ^ 1) []
        [.enqueue 1, .enqueue 2, .dequeue, .enqueue 3, .dequeue]) :=
  (observe_empty_iff (by decide) _).2 (by decide)

/-- **One refusal is enough to part the two.** Two cells, filled; the third
`enqueue` is refused, and after a `dequeue` the queue refuses the next one
too, with a single element stored. -/
theorem refusal_lost_cell :
    (empty (T := ℕ) 2).observe [.enqueue 1, .enqueue 2, .enqueue 3, .dequeue, .enqueue 4] =
        some [(.accepted true, 1), (.accepted true, 2), (.accepted false, 3),
          (.removed (some 1), 2),
          (.accepted false, 3)] ∧
      BoundedFifo.observe 2 [] [.enqueue 1, .enqueue 2, .enqueue 3, .dequeue, .enqueue 4] =
        [(.accepted true, 1), (.accepted true, 2), (.accepted false, 2), (.removed (some 1), 1),
          (.accepted true, 2)] ∧
      (empty (T := ℕ) 2).observe [.enqueue 1, .enqueue 2, .enqueue 3, .dequeue, .enqueue 4] ≠
        some (BoundedFifo.observe 2 []
          [.enqueue 1, .enqueue 2, .enqueue 3, .dequeue, .enqueue 4]) := by
  decide

end LockFreeFixedQueue

end NetLib
