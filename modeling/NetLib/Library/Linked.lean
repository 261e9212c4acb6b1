import Mathlib.Data.List.Nodup
import Mathlib.Logic.Function.Basic
/-!
# Linked nodes

A list that lives in a memory of nodes with one pointer each. `Linked` reads it
off from its first pointer; a node outside of it may be changed freely.
-/

/-- The pointer `p` leads to the nodes `l`, one after the other, and then to
nil. -/
def Linked {α : Type*} (next : α → Option α) : Option α → List α → Prop
  | p, [] => p = none
  | p, n :: l => p = some n ∧ Linked next (next n) l

namespace Linked

variable {α : Type*} {next next' : α → Option α} {p : Option α} {l l' : List α} {n : α}

@[simp] theorem nil : Linked next none [] := rfl

theorem congr (h : Linked next p l) (hsame : ∀ n ∈ l, next' n = next n) : Linked next' p l := by
  induction l generalizing p with
  | nil => exact h
  | cons n l ih =>
    refine ⟨h.1, ?_⟩
    rw [hsame n List.mem_cons_self]
    exact ih h.2 fun m hm => hsame m (List.mem_cons_of_mem n hm)

/-- A pointer leads to one list. -/
theorem unique (h : Linked next p l) (h' : Linked next p l') : l = l' := by
  induction l generalizing p l' with
  | nil =>
    cases l' with
    | nil => rfl
    | cons n l' => exact absurd (h.symm.trans h'.1) (by simp)
  | cons n l ih =>
    cases l' with
    | nil => exact absurd (h'.symm.trans h.1) (by simp)
    | cons n' l' =>
      obtain rfl : n = n' := Option.some.inj (h.1.symm.trans h'.1)
      rw [ih h.2 h'.2]

/-- The pointer is to the first node. -/
theorem head (h : Linked next p l) : p = l.head? := by
  cases l with
  | nil => exact h
  | cons n l => exact h.1

/-- Nodes one after the other, the last of them with nil. -/
theorem range' {next : ℕ → Option ℕ} {a k : ℕ}
    (hnext : ∀ n, a ≤ n → n < a + k → next n = some (n + 1)) (hlast : next (a + k) = none) :
    Linked next (some a) (List.range' a (k + 1)) := by
  induction k generalizing a with
  | zero => exact ⟨rfl, hlast⟩
  | succ k ih =>
    refine ⟨rfl, ?_⟩
    rw [hnext a (Nat.le_refl a) (by omega)]
    exact ih (fun n hn hn' => hnext n (by omega) (by omega)) (by rwa [Nat.add_right_comm])

variable [DecidableEq α]

/-- A node outside of the list is changed. -/
theorem update (h : Linked next p l) (hn : n ∉ l) (q : Option α) :
    Linked (Function.update next n q) p l :=
  h.congr fun m hm => Function.update_of_ne (fun heq : m = n => hn (heq ▸ hm)) q next

/-- **A node is put in front.** -/
theorem push (h : Linked next p l) (hn : n ∉ l) :
    Linked (Function.update next n p) (some n) (n :: l) := by
  refine ⟨rfl, ?_⟩
  rw [Function.update_self]
  exact h.update hn p

/-- **A list is cut behind a node.** -/
theorem cut (h : Linked next p (l ++ n :: l')) (hnodup : (l ++ n :: l').Nodup) :
    Linked (Function.update next n none) p (l ++ [n]) ∧
      Linked (Function.update next n none) (next n) l' := by
  induction l generalizing p with
  | nil =>
    refine ⟨⟨h.1, ?_⟩, h.2.update (List.nodup_cons.1 hnodup).1 none⟩
    exact Function.update_self n none next
  | cons m l ih =>
    obtain ⟨hm, hnodup⟩ := List.nodup_cons.1 hnodup
    obtain ⟨hcut, hrest⟩ := ih h.2 hnodup
    refine ⟨⟨h.1, ?_⟩, hrest⟩
    have hne : m ≠ n := fun heq => hm (heq ▸ List.mem_append_right l List.mem_cons_self)
    rwa [Function.update_of_ne hne]

end Linked
