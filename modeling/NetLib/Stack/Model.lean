import NetLib.Library.Lifo
import NetLib.Library.Pool
import NetLib.Stack.LockFreeData
/-!
# `LockFreeStack`, one access at a time

A linked list with a tagged top. `Push` increments the tag, `Pop` keeps it and
gives its node to the pool at once, whose next `Alloc` may hand it to another
`Push` while a third thread still goes by what it has read of it.
-/

namespace NetLib

open LockFreeData

/-- An operation that has returned: its place in the history lies between
where the history was when it was called and when it returned. -/
structure Returned (T : Type) where
  called : ℕ
  entry : ℕ
  ended : ℕ
  op : Lifo.Op T

structure LockFreeStack (T : Type) where
  top : BitVec 64
  objectsInPool : BitVec 32
  -- the fields of the nodes
  data : Address → T
  next : Address → Address
  /-- The nodes that were given to `_pool.Free` and not handed out since. -/
  pool : List Address
  /-- The nodes that were handed out at least once. -/
  used : List Address
  /-- What the operations did, in the order in which they took effect. -/
  history : List (Lifo.Op T)
  returned : List (Returned T)

namespace LockFreeStack

variable {T : Type}

/-- Where a thread is inside `Push` or `Pop`. `called` is the length of the
history when the operation was called, `entry` its own place there, and
`pushes` how many pushes had succeeded when it read `_top`. -/
inductive Pc (T : Type)
  | idle
  -- Push
  | alloc (called : ℕ) (data : T)
  | setData (called : ℕ) (node : Address) (data : T)
  | loadPush (called : ℕ) (node : Address) (data : T)
  | setNext (called : ℕ) (node : Address) (data : T) (top : BitVec 64) (pushes : ℕ)
  | casPush (called : ℕ) (node : Address) (data : T) (top : BitVec 64) (pushes : ℕ)
  | increment (called entry : ℕ) (data : T)
  -- Pop
  | loadPop (called : ℕ)
  | getData (called : ℕ) (top : BitVec 64) (pushes : ℕ)
  | getNext (called : ℕ) (top : BitVec 64) (pushes : ℕ) (data : T)
  | casPop (called : ℕ) (top : BitVec 64) (pushes : ℕ) (data : T) (next : Address)
  | decrement (called entry : ℕ) (node : Address) (data : T)
  | free (called entry : ℕ) (node : Address) (data : T)
  deriving DecidableEq

inductive Event (T : Type)
  | go
  | push (data : T)
  | pop
  /-- `_pool.Alloc` hands out a node that was freed, -/
  | reuse (node : Address)
  /-- or one that was never in use. -/
  | create (node : Address)
  deriving DecidableEq

/-- How many pushes have succeeded. -/
def pushes (s : LockFreeStack T) : ℕ := (Lifo.pushed s.history).length

variable [Inhabited T]

/-- The next access of a thread. -/
def access (s : LockFreeStack T) : Pc T → Event T → Option (LockFreeStack T × Pc T)
  | .idle, .push x => some (s, .alloc s.history.length x)
  | .idle, .pop => some (s, .loadPop s.history.length)
  | .alloc c x, .reuse a =>
    if a ∈ s.pool then some ({ s with pool := s.pool.erase a }, .setData c a x) else none
  | .alloc c x, .create a =>
    if a ∈ s.used ∨ a = 0 then none
    else some ({ s with used := a :: s.used, data := Function.update s.data a default,
                        next := Function.update s.next a 0 }, .setData c a x)
  | .setData c a x, .go => some ({ s with data := Function.update s.data a x }, .loadPush c a x)
  | .loadPush c a x, .go => some (s, .setNext c a x s.top s.pushes)
  | .setNext c a x t n, .go =>
    some ({ s with next := Function.update s.next a (pointer t) }, .casPush c a x t n)
  | .casPush c a x t _, .go =>
    if s.top = t then
      some ({ s with top := pushTop a t, history := s.history ++ [.push x] },
        .increment c s.history.length x)
    else some (s, .loadPush c a x)
  | .increment c e x, .go =>
    some ({ s with objectsInPool := s.objectsInPool + 1,
                   returned := s.returned ++ [⟨c, e, s.history.length, .push x⟩] }, .idle)
  | .loadPop c, .go =>
    if pointer s.top = 0 then
      some ({ s with history := s.history ++ [.empty], returned :=
        s.returned ++ [⟨c, s.history.length, s.history.length + 1, .empty⟩] }, .idle)
    else some (s, .getData c s.top s.pushes)
  | .getData c t n, .go => some (s, .getNext c t n (s.data (pointer t)))
  | .getNext c t n x, .go => some (s, .casPop c t n x (s.next (pointer t)))
  | .casPop c t _ x a, .go =>
    if s.top = t then
      some ({ s with top := popTop a t, history := s.history ++ [.pop x] },
        .decrement c s.history.length (pointer t) x)
    else some (s, .loadPop c)
  | .decrement c e a x, .go =>
    some ({ s with objectsInPool := s.objectsInPool - 1 }, .free c e a x)
  | .free c e a x, .go =>
    some ({ s with pool := a :: s.pool,
                   returned := s.returned ++ [⟨c, e, s.history.length, .pop x⟩] }, .idle)
  | _, _ => none

abbrev World (T : Type) := Pool (LockFreeStack T) (Pc T)

abbrev step : World T → ℕ × Event T → Option (World T) := Pool.step access

/-- The stack as constructed, and `n` threads. -/
def World.initial (n : ℕ) : World T where
  shared := ⟨0, 0, fun _ => default, fun _ => 0, [], [], [], []⟩
  threads := List.replicate n .idle

/-- How many pushes had succeeded when a thread about to compare read `_top`. -/
def Pc.loadedAt : Pc T → Option ℕ
  | .casPush _ _ _ _ n | .casPop _ _ n _ _ => some n
  | _ => none

/-- Fewer than 2^17 pushes succeed between the load of `_top` and the
compare-exchange of an operation. -/
def Fresh (w : World T) (e : ℕ × Event T) (_ : World T) : Prop :=
  ∀ n ∈ w.threads[e.1]?.bind Pc.loadedAt, w.shared.pushes < n + 2 ^ 17

instance decidableFresh (w : World T) (e : ℕ × Event T) (w' : World T) :
    Decidable (Fresh w e w') :=
  match h : w.threads[e.1]?.bind Pc.loadedAt with
  | none => isTrue fun n hn => by simp [h] at hn
  | some n => decidable_of_iff (w.shared.pushes < n + 2 ^ 17) (by simp [Fresh, h])

/-- The nodes of a list are linked by `next`. -/
def Linked (next : Address → Address) : List Address → Prop
  | [] => True
  | a :: nodes => next a = nodes.headD 0 ∧ Linked next nodes

/-- `nodes` is the list that starts at `_top`. -/
structure IsList (s : LockFreeStack T) (nodes : List Address) : Prop where
  top : pointer s.top = nodes.headD 0
  linked : Linked s.next nodes
  nonnull : 0 ∉ nodes
  nodup : nodes.Nodup

/-- The stack is a LIFO stack of the values of its nodes. -/
structure Linearizable (s : LockFreeStack T) (nodes : List Address) : Prop where
  list : IsList s nodes
  /-- In the order in which they took effect, the operations are those of a
  stack: each `Pop` got the value on top, or found the stack empty. -/
  legal : Lifo.Legal s.history (nodes.map s.data)
  /-- No value is lost or duplicated. -/
  conserved : (Lifo.pushed s.history).Perm (Lifo.popped s.history ++ nodes.map s.data)
  /-- Every operation took effect between its call and its return, -/
  between : ∀ r ∈ s.returned, r.called ≤ r.entry ∧ r.entry < r.ended ∧
    s.history[r.entry]? = some r.op
  /-- and each had an effect of its own. -/
  apart : (s.returned.map Returned.entry).Nodup
  /-- An index that only its holder pushes is not obtained by two threads. -/
  index : ∀ [DecidableEq T] (x : T),
    (∀ p, p <+: s.history → (Lifo.pushed p).count x ≤ (Lifo.popped p).count x + 1) →
    ∀ a b c, s.history = a ++ .pop x :: (b ++ .pop x :: c) → .push x ∈ b

end LockFreeStack

end NetLib
