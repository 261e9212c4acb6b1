import Mathlib.Data.Nat.Bitwise
import Mathlib.Data.Nat.ModEq
import Mathlib.Logic.Function.Basic
import Mathlib.Tactic.Ring
/-!
# Bounded FIFO queues

A queue of capacity `cap` as a list, oldest element first, and what its
calls answer. The second half is a ring of `cap` cells: a run of at most
`cap` consecutive tickets lands on distinct cells, so what is written for one
ticket leaves the others alone.
-/

namespace BoundedFifo

variable {α : Type}

/-- The two calls of a queue. -/
inductive Call (α : Type)
  | enqueue (x : α)
  | dequeue
  deriving DecidableEq

/-- What a call answers: acceptance, or the element removed. -/
inductive Answer (α : Type)
  | accepted (ok : Bool)
  | removed (x : Option α)
  deriving DecidableEq

/-- The answer of one call on the stored elements, and what is stored
after it. A full queue refuses and is left as it was. -/
def apply (cap : ℕ) (items : List α) : Call α → Answer α × List α
  | .enqueue x =>
    if items.length < cap then (.accepted true, items ++ [x]) else (.accepted false, items)
  | .dequeue => (.removed items.head?, items.tail)

/-- Everything a caller sees of a sequence of calls: each answer, with the
number of stored elements after it. -/
def observe (cap : ℕ) (items : List α) : List (Call α) → List (Answer α × ℤ)
  | [] => []
  | c :: cs =>
    let (a, items') := apply cap items c
    (a, (items'.length : ℤ)) :: observe cap items' cs

/-- No element is offered to a full queue: `n` elements are stored at the
start, and each `enqueue` finds room. -/
def OffersFit (cap : ℕ) : ℕ → List (Call α) → Prop
  | _, [] => True
  | n, .enqueue _ :: cs => n < cap ∧ OffersFit cap (n + 1) cs
  | n, .dequeue :: cs => OffersFit cap (n - 1) cs

instance decidableOffersFit (cap : ℕ) :
    (n : ℕ) → (cs : List (Call α)) → Decidable (OffersFit cap n cs)
  | _, [] => isTrue trivial
  | n, .enqueue _ :: cs =>
    @instDecidableAnd _ _ (Nat.decLt n cap) (decidableOffersFit cap (n + 1) cs)
  | n, .dequeue :: cs => decidableOffersFit cap (n - 1) cs

/-- How many elements find room, with `n` stored at the start. -/
def accepted (cap : ℕ) : ℕ → List (Call α) → ℕ
  | _, [] => 0
  | n, .enqueue _ :: cs => if n < cap then accepted cap (n + 1) cs + 1 else accepted cap n cs
  | n, .dequeue :: cs => accepted cap (n - 1) cs

theorem accepted_cons (cap : ℕ) (items : List α) (c : Call α) (cs : List (Call α)) :
    accepted cap items.length (c :: cs) =
      accepted cap items.length [c] + accepted cap (apply cap items c).2.length cs := by
  cases c with
  | enqueue x =>
    by_cases hroom : items.length < cap
    · simp only [accepted, apply, if_pos hroom]
      rw [List.length_append, List.length_singleton]
      omega
    · simp only [accepted, apply, if_neg hroom]
      omega
  | dequeue =>
    simp only [accepted, apply, List.length_tail]
    omega

/-- An element that finds room is stored after the call. -/
theorem accepted_singleton_le (cap : ℕ) (items : List α) (c : Call α) :
    accepted cap items.length [c] ≤ 1 ∧
      accepted cap items.length [c] ≤ (apply cap items c).2.length := by
  cases c with
  | enqueue x =>
    by_cases hroom : items.length < cap
    · simp only [accepted, apply, if_pos hroom]
      rw [List.length_append, List.length_singleton]
      omega
    · simp only [accepted, apply, if_neg hroom]
      omega
  | dequeue =>
    simp only [accepted]
    omega

/-! ## Cells of a ring -/

/-- **A window of a ring has no collision**: two tickets less than `cap`
apart that share a cell are one. -/
theorem eq_of_mod_eq {c h i j : ℕ} (hi : h ≤ i) (hi' : i < h + c) (hj : h ≤ j)
    (hj' : j < h + c) (hmod : i % c = j % c) : i = j := by
  rcases Nat.le_total i j with hle | hle
  · have hd : c ∣ j - i := (Nat.modEq_iff_dvd' hle).1 hmod
    have := Nat.eq_zero_of_dvd_of_lt hd (by omega)
    omega
  · have hd : c ∣ i - j := (Nat.modEq_iff_dvd' hle).1 hmod.symm
    have := Nat.eq_zero_of_dvd_of_lt hd (by omega)
    omega

/-- The same, counted from the start of the window. -/
theorem eq_of_add_mod_eq {c h i j : ℕ} (hi : i < c) (hj : j < c)
    (hmod : (h + i) % c = (h + j) % c) : i = j := by
  have := eq_of_mod_eq (h := h) (by omega) (by omega) (by omega) (by omega) hmod
  omega

/-- A mask of `k` ones reduces an index modulo the number of cells. -/
theorem and_mask_ofNat {w k : ℕ} (hk : k ≤ w) (n : ℕ) :
    BitVec.ofNat w n &&& BitVec.ofNat w (2 ^ k - 1) = BitVec.ofNat w (n % 2 ^ k) := by
  have hpos := Nat.two_pow_pos k
  have hle := Nat.pow_le_pow_right (n := 2) (by omega) hk
  have hmod := Nat.mod_lt n hpos
  refine BitVec.eq_of_toNat_eq ?_
  rw [BitVec.toNat_and, BitVec.toNat_ofNat, BitVec.toNat_ofNat, BitVec.toNat_ofNat,
    Nat.mod_eq_of_lt (show 2 ^ k - 1 < 2 ^ w by omega), Nat.and_two_pow_sub_one_eq_mod,
    Nat.mod_mod_of_dvd n (Nat.pow_dvd_pow 2 hk),
    Nat.mod_eq_of_lt (show n % 2 ^ k < 2 ^ w by omega)]

/-- The cells from ticket `h` on hold `items`. -/
def Cells (c : ℕ) (buffer : ℕ → α) (items : List α) (h : ℕ) : Prop :=
  ∀ j x, items[j]? = some x → buffer ((h + j) % c) = x

section Cells

variable {c h : ℕ} {buffer : ℕ → α} {items : List α} {x : α}

theorem Cells.oldest (hc : Cells c buffer (x :: items) h) : buffer (h % c) = x :=
  hc 0 x rfl

/-- The next ticket goes behind the others. -/
theorem Cells.push (hc : Cells c buffer items h) (hroom : items.length < c) (x : α) :
    Cells c (Function.update buffer ((h + items.length) % c) x) (items ++ [x]) h := by
  intro j y hj
  rcases Nat.lt_or_ge j items.length with hlt | hge
  · have hcell : (h + j) % c ≠ (h + items.length) % c := fun heq =>
      hlt.ne (eq_of_add_mod_eq (by omega) hroom heq)
    rw [Function.update_of_ne hcell]
    exact hc j y (by rwa [List.getElem?_append_left hlt] at hj)
  · have hlen := (List.getElem?_eq_some_iff.1 hj).1
    rw [List.length_append, List.length_singleton] at hlen
    obtain rfl : j = items.length := by omega
    rw [List.getElem?_concat_length] at hj
    rw [Function.update_self]
    exact Option.some.inj hj

theorem Cells.pop (hc : Cells c buffer (x :: items) h) : Cells c buffer items (h + 1) := by
  intro j y hj
  have := hc (j + 1) y (by rwa [List.getElem?_cons_succ])
  rwa [show h + (j + 1) = h + 1 + j by omega] at this

/-- Whatever is left in the cell of the element that went. -/
theorem Cells.pop_update (hc : Cells c buffer (x :: items) h) (hlen : items.length < c) (y : α) :
    Cells c (Function.update buffer (h % c) y) items (h + 1) := by
  intro j z hj
  have hlt : j < items.length := (List.getElem?_eq_some_iff.1 hj).1
  have hcell : (h + (j + 1)) % c ≠ h % c := fun heq =>
    j.succ_ne_zero (eq_of_add_mod_eq (h := h) (by omega) (by omega) heq)
  rw [show h + (j + 1) = h + 1 + j by omega] at hcell
  rw [Function.update_of_ne hcell]
  exact hc.pop j z hj

end Cells

end BoundedFifo
