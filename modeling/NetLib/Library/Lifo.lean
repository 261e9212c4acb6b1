import Mathlib.Data.List.Induction
import Mathlib.Data.List.Perm.Basic
import Mathlib.Tactic.Common
/-!
# LIFO stacks

A stack as a list, top first, and the histories it allows: sequences of
operations, each with its answer. What a legal history takes out it has put
in before.
-/

namespace Lifo

open List

variable {α : Type}

/-- An operation with its answer. -/
inductive Op (α : Type)
  | push (x : α)
  | pop (x : α)
  /-- a `pop` that found nothing -/
  | empty
  deriving DecidableEq

/-- `Legal h s`: the history `h`, from the empty stack on, leaves `s`. -/
inductive Legal : List (Op α) → List α → Prop
  | nil : Legal [] []
  | push {h : List (Op α)} {s : List α} (x : α) : Legal h s → Legal (h ++ [.push x]) (x :: s)
  | pop {h : List (Op α)} {s : List α} {x : α} : Legal h (x :: s) → Legal (h ++ [.pop x]) s
  | empty {h : List (Op α)} : Legal h [] → Legal (h ++ [.empty]) []

/-- What a history puts in, in order. -/
def pushed (h : List (Op α)) : List α :=
  h.filterMap fun | .push x => some x | _ => none

/-- What a history takes out, in order. -/
def popped (h : List (Op α)) : List α :=
  h.filterMap fun | .pop x => some x | _ => none

@[simp] theorem pushed_append (h h' : List (Op α)) : pushed (h ++ h') = pushed h ++ pushed h' :=
  List.filterMap_append

@[simp] theorem popped_append (h h' : List (Op α)) : popped (h ++ h') = popped h ++ popped h' :=
  List.filterMap_append

@[simp] theorem pushed_nil : pushed ([] : List (Op α)) = [] := rfl
@[simp] theorem popped_nil : popped ([] : List (Op α)) = [] := rfl

section Cons

variable (x : α) (h : List (Op α))

@[simp] theorem pushed_push_cons : pushed (.push x :: h) = x :: pushed h := rfl
@[simp] theorem pushed_pop_cons : pushed (.pop x :: h) = pushed h := rfl
@[simp] theorem pushed_empty_cons : pushed (.empty :: h) = pushed h := rfl
@[simp] theorem popped_push_cons : popped (.push x :: h) = popped h := rfl
@[simp] theorem popped_pop_cons : popped (.pop x :: h) = x :: popped h := rfl
@[simp] theorem popped_empty_cons : popped (.empty :: h) = popped h := rfl

end Cons

theorem push_mem_of_mem_pushed {h : List (Op α)} {x : α} (hx : x ∈ pushed h) : .push x ∈ h := by
  obtain ⟨o, ho, heq⟩ := List.mem_filterMap.1 hx
  cases o with
  | push y => exact Option.some.inj heq ▸ ho
  | pop y => cases heq
  | empty => cases heq

/-- **What was put in is what was taken out and what is still there.** -/
theorem Legal.conserved {h : List (Op α)} {s : List α} (hl : Legal h s) :
    (pushed h).Perm (popped h ++ s) := by
  induction hl with
  | nil => exact .refl _
  | @push h s x _ ih =>
    simp only [pushed_append, popped_append, pushed_push_cons, popped_push_cons, pushed_nil,
      popped_nil, List.append_nil]
    calc pushed h ++ [x]
      _ ~ (popped h ++ s) ++ [x] := ih.append_right [x]
      _ ~ x :: (popped h ++ s) := List.perm_append_singleton _ _
      _ ~ popped h ++ x :: s := List.perm_middle.symm
  | pop _ ih => simpa using ih
  | empty _ ih => simpa using ih

/-- A legal history was legal all along. -/
theorem Legal.of_append {h h' : List (Op α)} {s : List α} (hl : Legal (h ++ h') s) :
    ∃ t, Legal h t := by
  induction h' using List.reverseRecOn generalizing s with
  | nil => exact ⟨s, by rwa [List.append_nil] at hl⟩
  | append_singleton l o ih =>
    rw [← List.append_assoc] at hl
    generalize hg : h ++ l ++ [o] = g at hl
    cases hl with
    | nil => simp at hg
    | push x hl => exact ih ((List.append_inj_left' hg rfl) ▸ hl)
    | pop hl => exact ih ((List.append_inj_left' hg rfl) ▸ hl)
    | empty hl => exact ih ((List.append_inj_left' hg rfl) ▸ hl)

variable [DecidableEq α]

/-- Nothing is taken out more often than it was put in. -/
theorem Legal.count_le {h : List (Op α)} {s : List α} (hl : Legal h s) (x : α) :
    (popped h).count x ≤ (pushed h).count x := by
  rw [hl.conserved.count_eq, List.count_append]
  exact Nat.le_add_right _ _

/-- **Where a value is put in only by who took it out, nobody takes out what
another one has**: between two times it is taken out it is put in. -/
theorem Legal.push_between {h a b c : List (Op α)} {s : List α} {x : α} (hl : Legal h s)
    (hone : ∀ p, p <+: h → (pushed p).count x ≤ (popped p).count x + 1)
    (heq : h = a ++ .pop x :: (b ++ .pop x :: c)) : .push x ∈ b := by
  refine push_mem_of_mem_pushed (List.count_pos_iff.1 ?_)
  -- the history up to the second time
  have hsplit : h = (a ++ .pop x :: (b ++ [.pop x])) ++ c := by simp [heq]
  obtain ⟨t, ht⟩ := Legal.of_append (hsplit ▸ hl)
  have hle := ht.count_le x
  have ha := hone a ⟨_, heq.symm⟩
  simp only [pushed_append, popped_append, pushed_pop_cons, popped_pop_cons, pushed_nil,
    popped_nil, List.append_nil, List.count_append, List.count_cons_self]
    at hle
  omega

end Lifo
