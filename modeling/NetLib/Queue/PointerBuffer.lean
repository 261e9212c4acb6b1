import Mathlib.Algebra.Order.Ring.Nat
import Mathlib.Logic.Function.Basic
import NetLib.Library.BoundedFifo
/-!
# `PointerBuffer`

A ring of `N` pointers for one thread, with two 64-bit indices that only grow
and wrap. `Enqueue` and `Dequeue` go by the indices; `size` goes by the cells
they fall on, and is wrong as soon as the elements stored reach the end of the
array. `BatchDequeue` runs as many rounds as `size` says.
-/

namespace NetLib

/-- The buffer; a pointer is `none` where it is `nullptr`. -/
structure PointerBuffer (α : Type) (N : ℕ) where
  buffer : ℕ → Option α
  frontIndex : BitVec 64
  rearIndex : BitVec 64

namespace PointerBuffer

variable {α : Type} {N : ℕ}

/-- `index & INDEX_MASK` -/
def mask (N : ℕ) (index : BitVec 64) : BitVec 64 := index &&& BitVec.ofNat 64 (N - 1)

/-- The buffer as constructed; its cells are not initialized. -/
def init (N : ℕ) (buffer : ℕ → Option α) : PointerBuffer α N := ⟨buffer, 0, 0⟩

/-- `Enqueue`; `none` at its `__debugbreak()`. -/
def enqueue (b : PointerBuffer α N) (value : Option α) : Option (PointerBuffer α N) :=
  if b.rearIndex - b.frontIndex = BitVec.ofNat 64 N then none
  else some { b with
    buffer := Function.update b.buffer (mask N b.rearIndex).toNat value
    rearIndex := b.rearIndex + 1 }

def dequeue (b : PointerBuffer α N) : Option α × PointerBuffer α N :=
  if b.frontIndex = b.rearIndex then (none, b)
  else (b.buffer (mask N b.frontIndex).toNat, { b with frontIndex := b.frontIndex + 1 })

def size (b : PointerBuffer α N) : BitVec 64 :=
  if b.frontIndex ≤ b.rearIndex then mask N b.rearIndex - mask N b.frontIndex
  else mask N b.frontIndex - mask N b.rearIndex

/-- The loop of `BatchDequeue`: what `fn` is called on. -/
def batchLoop : ℕ → PointerBuffer α N → List (Option α) × PointerBuffer α N
  | 0, b => ([], b)
  | n + 1, b =>
    let r := batchLoop n { b with frontIndex := b.frontIndex + 1 }
    (b.buffer (mask N b.frontIndex).toNat :: r.1, r.2)

/-- `BatchDequeue`; `none` if the `int` that counts the rounds overflows. -/
def batchDequeue (b : PointerBuffer α N) : Option (List (Option α) × PointerBuffer α N) :=
  if b.size.toNat < 2 ^ 31 then some (batchLoop b.size.toNat b) else none

/-- A call. -/
inductive Call (α : Type)
  | enqueue (value : Option α)
  | dequeue
  | batchDequeue
  deriving DecidableEq

/-- What the caller sees of it. -/
inductive Answer (α : Type)
  | done
  | removed (value : Option α)
  | called (values : List (Option α))
  deriving DecidableEq

def apply (b : PointerBuffer α N) : Call α → Option (Answer α × PointerBuffer α N)
  | .enqueue value => (b.enqueue value).map fun b' => (.done, b')
  | .dequeue => some (.removed b.dequeue.1, b.dequeue.2)
  | .batchDequeue => b.batchDequeue.map fun r => (.called r.1, r.2)

/-! ## What the buffer is for -/

/-- The elements stored after a call, oldest first. -/
def stored (items : List (Option α)) : Call α → List (Option α)
  | .enqueue value => items ++ [value]
  | .dequeue => items.tail
  | .batchDequeue => []

/-- The answer is right: the oldest element, or `nullptr` if and only if none
is stored; a call of `fn` for each element. -/
def Right (items : List (Option α)) : Call α → Answer α → Prop
  | .enqueue _, a => a = .done
  | .dequeue, a => a = .removed (items.headD none) ∧ (a = .removed none ↔ items = [])
  | .batchDequeue, a => a = .called items

/-- Every call answers right, and `size` is the number of the elements stored
after it. -/
def Behaves (items : List (Option α)) (b : PointerBuffer α N) : List (Call α) → Prop
  | [] => True
  | c :: calls => match b.apply c with
    | none => False
    | some (a, b') => Right items c a ∧ b'.size.toNat = (stored items c).length ∧
      Behaves (stored items c) b' calls

/-- `Enqueue` is called with fewer than `N` elements stored. -/
def OffersFit (N : ℕ) (items : List (Option α)) : List (Call α) → Prop
  | [] => True
  | c :: calls => (∀ value, c = .enqueue value → items.length < N) ∧
    OffersFit N (stored items c) calls

/-- With `h` elements removed so far and `n` stored: they do not reach the end
of the array. Where the rear index has wrapped and the front index has not,
`size` is right for half an array all the same. -/
def Straight (N h n : ℕ) : Prop := h % N + n < N ∨ 2 ^ 64 ≤ h % 2 ^ 64 + n ∧ 2 * n = N

/-- How many elements a call removes. -/
def removedBy (items : List (Option α)) : Call α → ℕ
  | .enqueue _ => 0
  | .dequeue => min 1 items.length
  | .batchDequeue => items.length

/-- After each call what is stored lies straight, and no `nullptr` is
dequeued; `h` elements were removed before the calls. -/
def StaysStraight (N : ℕ) : ℕ → List (Option α) → List (Call α) → Prop
  | _, _, [] => True
  | h, items, c :: calls => (c = .dequeue → items.head? ≠ some none) ∧
    Straight N (h + removedBy items c) (stored items c).length ∧
    StaysStraight N (h + removedBy items c) (stored items c) calls

/-! ## What the buffer holds -/

/-- The buffer stores `items`, oldest first; `h` elements went through it
before. -/
structure Holds (b : PointerBuffer α N) (items : List (Option α)) (h : ℕ) : Prop where
  front : b.frontIndex = BitVec.ofNat 64 h
  rear : b.rearIndex = BitVec.ofNat 64 (h + items.length)
  le : items.length ≤ N
  reads : ∀ j x, items[j]? = some x → b.buffer ((h + j) % N) = x

variable {k h : ℕ} {b : PointerBuffer α (2 ^ k)} {items : List (Option α)}

theorem Holds.cells (hb : b.Holds items h) : BoundedFifo.Cells (2 ^ k) b.buffer items h := hb.reads

theorem mask_ofNat (hk : k ≤ 30) (n : ℕ) :
    mask (2 ^ k) (BitVec.ofNat 64 n) = BitVec.ofNat 64 (n % 2 ^ k) :=
  BoundedFifo.and_mask_ofNat (by omega) n

theorem toNat_mask_ofNat (hk : k ≤ 30) (n : ℕ) :
    (mask (2 ^ k) (BitVec.ofNat 64 n)).toNat = n % 2 ^ k := by
  have := Nat.mod_lt n (Nat.two_pow_pos k)
  have := Nat.pow_le_pow_right (n := 2) (by omega) hk
  rw [mask_ofNat hk, BitVec.toNat_ofNat, Nat.mod_eq_of_lt (by omega)]

theorem two_pow_le (hk : k ≤ 30) : 2 ^ k ≤ 2 ^ 30 :=
  Nat.pow_le_pow_right (by omega) hk

/-- Where the rear index has wrapped and the front index has not, the elements
reach the end of the array. -/
theorem le_of_index_wrapped (hk : k ≤ 30) {n : ℕ} (hwrap : 2 ^ 64 ≤ h % 2 ^ 64 + n) :
    2 ^ k ≤ h % 2 ^ k + n := by
  by_contra hlt
  obtain ⟨q, hq⟩ : 2 ^ k ∣ 2 ^ 64 := Nat.pow_dvd_pow 2 (by omega)
  have hpos := Nat.two_pow_pos k
  have hmod : h % 2 ^ 64 % 2 ^ k = h % 2 ^ k :=
    Nat.mod_mod_of_dvd h (Nat.pow_dvd_pow 2 (by omega))
  have hdiv := Nat.div_add_mod (h % 2 ^ 64) (2 ^ k)
  rw [hmod] at hdiv
  have hbelow : h % 2 ^ 64 / 2 ^ k < q := by
    rw [Nat.div_lt_iff_lt_mul hpos, Nat.mul_comm, ← hq]
    exact Nat.mod_lt h (by omega)
  have hmul := Nat.mul_le_mul_left (2 ^ k) hbelow
  rw [Nat.mul_succ] at hmul
  omega

/-- **When `size` is right.** -/
theorem Holds.size_eq_iff (hk : k ≤ 30) (hb : b.Holds items h) :
    b.size.toNat = items.length ↔ Straight (2 ^ k) h items.length := by
  have hle := hb.le
  have hmod := Nat.mod_lt h (Nat.two_pow_pos k)
  have hpow := two_pow_le hk
  have hcell : (h + items.length) % 2 ^ k =
      if h % 2 ^ k + items.length < 2 ^ k then h % 2 ^ k + items.length
      else h % 2 ^ k + items.length - 2 ^ k := by
    rw [Nat.add_mod]
    by_cases hfull : items.length = 2 ^ k
    · rw [hfull, Nat.mod_self, Nat.add_zero, Nat.mod_mod, if_neg (by omega),
        Nat.add_sub_cancel]
    · rw [Nat.mod_eq_of_lt (show items.length < 2 ^ k by omega)]
      split
      · exact Nat.mod_eq_of_lt ‹_›
      · rw [Nat.mod_eq_sub_mod (by omega), Nat.mod_eq_of_lt (by omega)]
  rw [size, hb.front, hb.rear, mask_ofNat hk, mask_ofNat hk, hcell]
  simp only [BitVec.le_def, BitVec.toNat_ofNat]
  by_cases hwrap : 2 ^ 64 ≤ h % 2 ^ 64 + items.length
  · have hend := le_of_index_wrapped hk hwrap
    rw [if_neg (by omega), if_neg (by omega), BitVec.toNat_sub, BitVec.toNat_ofNat,
      BitVec.toNat_ofNat, Straight]
    omega
  · rw [if_pos (by omega), Straight]
    split
    · rw [BitVec.toNat_sub, BitVec.toNat_ofNat, BitVec.toNat_ofNat]
      omega
    · rw [BitVec.toNat_sub, BitVec.toNat_ofNat, BitVec.toNat_ofNat]
      omega

/-- **`Enqueue` appends.** -/
theorem Holds.enqueue (hk : k ≤ 30) (hb : b.Holds items h) (hroom : items.length < 2 ^ k)
    (value : Option α) : ∃ b', b.enqueue value = some b' ∧ b'.Holds (items ++ [value]) h := by
  have hpow := two_pow_le hk
  have hne : ¬b.rearIndex - b.frontIndex = BitVec.ofNat 64 (2 ^ k) := by
    rw [hb.front, hb.rear, BitVec.ofNat_add, BitVec.add_comm, BitVec.add_sub_cancel]
    intro heq
    have := congrArg BitVec.toNat heq
    rw [BitVec.toNat_ofNat, BitVec.toNat_ofNat] at this
    omega
  refine ⟨_, if_neg hne, ?front, ?rear, ?le, ?reads⟩
  case front => exact hb.front
  case rear =>
    change b.rearIndex + 1 = _
    rw [hb.rear, List.length_append, List.length_singleton, ← Nat.add_assoc]
    exact (BitVec.ofNat_add ..).symm
  case le =>
    rw [List.length_append, List.length_singleton]
    omega
  case reads =>
    simp only
    rw [hb.rear, toNat_mask_ofNat hk]
    exact hb.cells.push hroom value

/-- The buffer without its oldest element. -/
theorem Holds.advance {x : Option α} (hb : b.Holds (x :: items) h) :
    Holds ({ b with frontIndex := b.frontIndex + 1 } : PointerBuffer α (2 ^ k)) items (h + 1) := by
  refine ⟨?_, ?_, ?_, hb.cells.pop⟩
  · change b.frontIndex + 1 = _
    rw [hb.front]
    exact (BitVec.ofNat_add ..).symm
  · rw [hb.rear, List.length_cons]
    congr 1
    omega
  · have := hb.le
    rw [List.length_cons] at this
    omega

theorem Holds.oldest (hk : k ≤ 30) {x : Option α} (hb : b.Holds (x :: items) h) :
    b.buffer (mask (2 ^ k) b.frontIndex).toNat = x := by
  rw [hb.front, toNat_mask_ofNat hk]
  exact hb.cells.oldest

/-- **`Dequeue` removes the oldest.** -/
theorem Holds.dequeue (hk : k ≤ 30) (hb : b.Holds items h) :
    b.dequeue.1 = items.headD none ∧ b.dequeue.2.Holds items.tail (h + min 1 items.length) := by
  have hpow := two_pow_le hk
  have hempty : b.frontIndex = b.rearIndex ↔ items = [] := by
    have hle := hb.le
    rw [hb.front, hb.rear, ← List.length_eq_zero_iff]
    constructor
    · intro heq
      have := congrArg BitVec.toNat heq
      rw [BitVec.toNat_ofNat, BitVec.toNat_ofNat] at this
      omega
    · intro hzero
      rw [hzero, Nat.add_zero]
  cases items with
  | nil =>
    rw [PointerBuffer.dequeue, if_pos (hempty.2 rfl)]
    exact ⟨rfl, hb⟩
  | cons x items =>
    rw [PointerBuffer.dequeue, if_neg (by simp [hempty])]
    refine ⟨hb.oldest hk, ?_⟩
    rw [List.length_cons, Nat.min_eq_left (by omega)]
    exact hb.advance

/-- The loop of `BatchDequeue` calls `fn` on the oldest elements, in order. -/
theorem Holds.batchLoop (hk : k ≤ 30) (hb : b.Holds items h) :
    (PointerBuffer.batchLoop items.length b).1 = items ∧
      (PointerBuffer.batchLoop items.length b).2.Holds [] (h + items.length) := by
  induction items generalizing b h with
  | nil => exact ⟨rfl, hb⟩
  | cons x items ih =>
    obtain ⟨hcalled, hleft⟩ := ih hb.advance
    rw [List.length_cons, PointerBuffer.batchLoop, hcalled, hb.oldest hk]
    rw [show h + (items.length + 1) = h + 1 + items.length by omega]
    exact ⟨rfl, hleft⟩

/-- **A call on elements that lie straight.** -/
theorem Holds.apply (hk : k ≤ 30) (hb : b.Holds items h)
    (hstraight : Straight (2 ^ k) h items.length) {c : Call α}
    (hfit : ∀ value, c = .enqueue value → items.length < 2 ^ k) :
    ∃ a b', b.apply c = some (a, b') ∧
      (Right items c a ↔ (c = .dequeue → items.head? ≠ some none)) ∧
      b'.Holds (stored items c) (h + removedBy items c) := by
  cases c with
  | enqueue value =>
    obtain ⟨b', henq, hb'⟩ := hb.enqueue hk (hfit value rfl) value
    refine ⟨.done, b', ?_, iff_of_true rfl (by simp), hb'⟩
    rw [PointerBuffer.apply, henq, Option.map_some]
  | dequeue =>
    obtain ⟨hvalue, hb'⟩ := hb.dequeue hk
    refine ⟨_, _, rfl, ?_, hb'⟩
    rw [Right, hvalue]
    cases items with
    | nil => simp
    | cons x items => cases x <;> simp
  | batchDequeue =>
    have hsize := (hb.size_eq_iff hk).2 hstraight
    have hle := hb.le
    have hpow := two_pow_le hk
    obtain ⟨hcalled, hb'⟩ := hb.batchLoop hk
    refine ⟨.called items, _, ?_, iff_of_true rfl (by simp), hb'⟩
    rw [PointerBuffer.apply, PointerBuffer.batchDequeue, hsize, if_pos (by omega), Option.map_some,
      hcalled]

/-- The calls behave, from whatever is stored, if and only if everything stays
straight. -/
theorem Holds.conforms (hk : k ≤ 30) (calls : List (Call α)) :
    ∀ {b : PointerBuffer α (2 ^ k)} {items : List (Option α)} {h : ℕ}, b.Holds items h →
      Straight (2 ^ k) h items.length → OffersFit (2 ^ k) items calls →
      (Behaves items b calls ↔ StaysStraight (2 ^ k) h items calls) := by
  induction calls with
  | nil => exact fun _ _ _ => iff_of_true trivial trivial
  | cons c calls ih =>
    intro b items h hb hstraight hfit
    obtain ⟨a, b', happly, hright, hb'⟩ := hb.apply hk hstraight hfit.1
    rw [Behaves, happly, StaysStraight]
    simp only
    rw [hright, hb'.size_eq_iff hk]
    refine and_congr_right fun _ => and_congr_right fun hstraight' => ?_
    exact ih hb' hstraight' hfit.2

/-- **`PointerBuffer` is a bounded FIFO if and only if** what it stores never
reaches the end of its array. -/
theorem behaves_iff (hk : k ≤ 30) (buffer : ℕ → Option α) (calls : List (Call α))
    (hfit : OffersFit (2 ^ k) [] calls) :
    Behaves [] (init (2 ^ k) buffer) calls ↔ StaysStraight (2 ^ k) 0 [] calls := by
  have hinit : (init (2 ^ k) buffer).Holds ([] : List (Option α)) 0 :=
    ⟨rfl, rfl, Nat.zero_le _, fun j x hj => by simp at hj⟩
  exact hinit.conforms hk calls (.inl (by simp)) hfit

/-- Two elements in a buffer of four, and a batch. -/
theorem behaves_iff_batch : Behaves [] (init (2 ^ 2) fun _ => none)
    [.enqueue (some 1), .enqueue (some 2), .batchDequeue] :=
  (behaves_iff (by decide) (fun _ => none) [.enqueue (some 1), .enqueue (some 2), .batchDequeue]
    (by simp [OffersFit, stored])).2 (by simp [StaysStraight, Straight, removedBy, stored])

/-- **A full buffer has the size 0**: two elements in a buffer of two, and
`BatchDequeue` calls `fn` on none. -/
theorem full_has_no_size :
    OffersFit 2 [] [.enqueue (some 1), .enqueue (some 2)] ∧
      ((init 2 fun _ => none).enqueue (some 1)).bind (fun b => (b.enqueue (some 2)).map fun b =>
        (b.size, b.batchDequeue.map Prod.fst)) = some (0, some []) ∧
      ¬∀ calls : List (Call ℕ), OffersFit 2 [] calls →
        Behaves [] (init 2 fun _ => none) calls := by
  have hfit : OffersFit 2 [] [.enqueue (some 1), .enqueue (some 2)] := by simp [OffersFit, stored]
  refine ⟨hfit, rfl, fun hall => ?_⟩
  have := (hall _ hfit).2.2.2.1
  exact absurd this (by decide)

end PointerBuffer

end NetLib
