import NetLib.Library.Pool
import NetLib.Stack.LockFreeData
/-!
# `TLSLockFreeQueue`, one access at a time

A linked list with a dummy in front, a tagged head and a tagged tail. `Enqueue`
links its node behind the last one, which it knows by its `next`: not null, but
the number of the queue, for the nodes are those of all queues of one type, and
a node may turn up in another queue while a thread still goes by it. The tail
may lag behind by one node; whoever finds it so moves it on, and `Dequeue` does
before it gives its node to the pool.
-/

namespace NetLib

open LockFreeData

structure TLSLockFreeQueue (T : Type) where
  head : BitVec 64
  tail : BitVec 64
  size : BitVec 32
  tailCount : BitVec 16
  -- the fields of the nodes
  data : Address → T
  next : Address → BitVec 64
  /-- The nodes in `_tlsLfqNodePool`, -/
  pool : List Address
  /-- those that other queues have, -/
  others : List Address
  /-- and all that were ever handed out. -/
  used : List Address
  /-- History: the heads and tails to be, in the order in which they were linked,
  the dummy first. -/
  words : List (BitVec 64)
  /-- History: how often `_tail` has moved. -/
  moved : ℕ
  /-- History: the values in the order in which they were linked, and in the
  order in which they were taken. -/
  enqueued : List T
  dequeued : List T

namespace TLSLockFreeQueue

variable {T : Type}

/-- `newNode | headCount << 47`, where `headCount` is a `short`. -/
def newTail (node : Address) (headCount : BitVec 16) : BitVec 64 :=
  node.setWidth 64 ||| (headCount.signExtend 64) <<< 47

/-- Where a thread is inside `Enqueue` or `Dequeue`. `i` is the place in the
history of the word it goes by. -/
inductive Pc (T : Type)
  | idle
  -- Enqueue
  | alloc (data : T)
  | setData (node : Address) (data : T)
  | setNext (node : Address) (data : T)
  | incTailCount (node : Address) (data : T)
  | loadTail (new : BitVec 64) (data : T)
  | loadNext (new : BitVec 64) (data : T) (tail : BitVec 64) (i : ℕ)
  | casNext (new : BitVec 64) (data : T) (tail : BitVec 64) (i : ℕ)
  | casTail (new : BitVec 64) (tail : BitVec 64) (i : ℕ)
  | helpNext (new : BitVec 64) (data : T) (tail : BitVec 64) (i : ℕ)
  | helpTail (new : BitVec 64) (data : T) (tail : BitVec 64) (i : ℕ) (next : BitVec 64)
  | incSize
  -- Dequeue
  | loadSize
  | loadHead
  | headNext (head : BitVec 64) (i : ℕ)
  | getData (head : BitVec 64) (i : ℕ) (next : BitVec 64)
  | casHead (head : BitVec 64) (i : ℕ) (next : BitVec 64) (data : T)
  | tailAfter (head : BitVec 64) (i : ℕ)
  | fixNext (head : BitVec 64) (i : ℕ)
  | fixTail (head : BitVec 64) (i : ℕ) (next : BitVec 64)
  | free (head : BitVec 64) (i : ℕ)
  | decSize
  deriving DecidableEq

inductive Event (T : Type)
  | go
  | enqueue (data : T)
  | dequeue
  /-- The pool hands out a node that was freed, -/
  | reuse (node : Address)
  /-- or a new one. -/
  | create (node : Address)
  /-- Another queue gets a node from the pool, -/
  | otherReuse (node : Address)
  | otherCreate (node : Address)
  /-- writes to it, -/
  | otherWrite (node : Address) (data : T) (next : BitVec 64)
  /-- and gives it back. -/
  | otherFree (node : Address)
  deriving DecidableEq

variable [Inhabited T]

/-- A node as the pool constructs it. -/
def construct (s : TLSLockFreeQueue T) (a : Address) : TLSLockFreeQueue T :=
  { s with used := a :: s.used, data := Function.update s.data a default,
           next := Function.update s.next a 0 }

@[simp] theorem construct_next (s : TLSLockFreeQueue T) (a : Address) :
    (s.construct a).next = Function.update s.next a 0 := rfl

@[simp] theorem construct_used (s : TLSLockFreeQueue T) (a : Address) :
    (s.construct a).used = a :: s.used := rfl

@[simp] theorem construct_pool (s : TLSLockFreeQueue T) (a : Address) :
    (s.construct a).pool = s.pool := rfl

/-- What the other queues do to the nodes. They write to those they have, and
none of them writes this queue's number. -/
def other (id : BitVec 64) (s : TLSLockFreeQueue T) : Event T → Option (TLSLockFreeQueue T)
  | .otherReuse a =>
    if s.pool.contains a then
      some { s with pool := s.pool.erase a, others := a :: s.others }
    else none
  | .otherCreate a =>
    if s.used.contains a ∨ a.toNat < 64000 then none
    else some { s.construct a with others := a :: s.others }
  | .otherWrite a x v =>
    if s.others.contains a ∧ v ≠ id then
      some { s with data := Function.update s.data a x, next := Function.update s.next a v }
    else none
  | .otherFree a =>
    if s.others.contains a then
      some { s with pool := a :: s.pool, others := s.others.erase a }
    else none
  | _ => none

/-- The next access of a thread to the queue whose number is `id`. -/
def access (id : BitVec 64) (s : TLSLockFreeQueue T) (pc : Pc T) (e : Event T) :
    Option (TLSLockFreeQueue T × Pc T) :=
  match pc, e with
  | .idle, .enqueue x => some (s, .alloc x)
  | .idle, .dequeue => some (s, .loadSize)
  | .idle, e => (other id s e).map (·, .idle)
  | .alloc x, .reuse a =>
    if s.pool.contains a then some ({ s with pool := s.pool.erase a }, .setData a x) else none
  | .alloc x, .create a =>
    if s.used.contains a ∨ a.toNat < 64000 then none else some (s.construct a, .setData a x)
  | .setData a x, .go => some ({ s with data := Function.update s.data a x }, .setNext a x)
  | .setNext a x, .go => some ({ s with next := Function.update s.next a id }, .incTailCount a x)
  | .incTailCount a x, .go =>
    some ({ s with tailCount := s.tailCount + 1 }, .loadTail (newTail a (s.tailCount + 1)) x)
  | .loadTail new x, .go => some (s, .loadNext new x s.tail s.moved)
  | .loadNext new x t i, .go =>
    some (s, if s.next (pointer t) = id then .casNext new x t i else .helpNext new x t i)
  | .casNext new x t i, .go =>
    if s.next (pointer t) = id then
      some ({ s with next := Function.update s.next (pointer t) new, words := s.words ++ [new],
                     enqueued := s.enqueued ++ [x] }, .casTail new t i)
    else some (s, .loadTail new x)
  | .casTail new t _, .go =>
    some (if s.tail = t then { s with tail := new, moved := s.moved + 1 } else s, .incSize)
  | .helpNext new x t i, .go => some (s, .helpTail new x t i (s.next (pointer t)))
  | .helpTail new x t _ v, .go =>
    some (if s.tail = t then { s with tail := v, moved := s.moved + 1 } else s, .loadTail new x)
  | .incSize, .go => some ({ s with size := s.size + 1 }, .idle)
  | .loadSize, .go => some (s, if s.size = 0 then .idle else .loadHead)
  | .loadHead, .go => some (s, .headNext s.head s.dequeued.length)
  | .headNext h i, .go =>
    some (s, if (pointer (s.next (pointer h))).toNat < 64000 then .idle
      else .getData h i (s.next (pointer h)))
  | .getData h i v, .go => some (s, .casHead h i v (s.data (pointer v)))
  | .casHead h i v x, .go =>
    if s.head = h then some ({ s with head := v, dequeued := s.dequeued ++ [x] }, .tailAfter h i)
    else some (s, .loadHead)
  | .tailAfter h i, .go => some (s, if s.tail = h then .fixNext h i else .free h i)
  | .fixNext h i, .go => some (s, .fixTail h i (s.next (pointer h)))
  | .fixTail h i v, .go =>
    some (if s.tail = h then { s with tail := v, moved := s.moved + 1 } else s, .free h i)
  | .free h _, .go => some ({ s with pool := pointer h :: s.pool }, .decSize)
  | .decSize, .go => some ({ s with size := s.size - 1 }, .idle)
  | _, _ => none

abbrev World (T : Type) := Pool (TLSLockFreeQueue T) (Pc T)

abbrev step (id : BitVec 64) : World T → ℕ × Event T → Option (World T) := Pool.step (access id)

/-- The queue as constructed, with its dummy, and `n` threads. -/
def World.initial (id : BitVec 64) (dummy : Address) (n : ℕ) : World T where
  shared :=
    { head := dummy.setWidth 64, tail := dummy.setWidth 64, size := 0, tailCount := 0,
      data := fun _ => default, next := Function.update (fun _ => 0) dummy id,
      pool := [], others := [], used := [dummy],
      words := [dummy.setWidth 64], moved := 0, enqueued := [], dequeued := [] }
  threads := List.replicate n .idle

/-- From `p` on the nodes are linked, and the last of them has the number of the
queue. -/
def Linked (id : BitVec 64) (next : Address → BitVec 64) : BitVec 64 → List Address → Prop
  | _, [] => False
  | p, [a] => pointer p = a ∧ next a = id
  | p, a :: b :: nodes => pointer p = a ∧ next a ≠ id ∧ Linked id next (next a) (b :: nodes)

/-- A FIFO queue of the values of its nodes, but for the dummy. -/
structure IsQueue (id : BitVec 64) (s : TLSLockFreeQueue T) (nodes : List Address) : Prop where
  linked : Linked id s.next s.head nodes
  nodup : nodes.Nodup
  /-- What was taken was enqueued first, in this order; the rest is there. -/
  values : s.enqueued = s.dequeued ++ nodes.tail.map s.data
  /-- No node that can be reached was freed, or is another queue's: from the
  head, -/
  kept : ∀ a ∈ nodes, a ∉ s.pool ∧ a ∉ s.others
  /-- or from the tail. -/
  tail : pointer s.tail ∉ s.pool ∧ pointer s.tail ∉ s.others

/-! ## What the operations have to be spared -/

/-- The head or the tail by which an operation goes. -/
def Pc.word : Pc T → Option (BitVec 64)
  | .loadNext _ _ t _ | .casNext _ _ t _ | .casTail _ t _ | .helpNext _ _ t _
  | .helpTail _ _ t _ _ => some t
  | .headNext h _ | .getData h _ _ | .casHead h _ _ _ | .tailAfter h _ | .fixNext h _
  | .fixTail h _ _ => some h
  | _ => none

/-- The node of which an `Enqueue` expects that it is the last one. -/
def Pc.expects : Pc T → Option Address
  | .loadNext _ _ t _ | .casNext _ _ t _ => some (pointer t)
  | _ => none

/-- The tail to be that the next access makes. -/
def Pc.makes (s : TLSLockFreeQueue T) : Pc T → Option (BitVec 64)
  | .incTailCount a _ => some (newTail a (s.tailCount + 1))
  | _ => none

def Event.reuses : Event T → Option Address
  | .reuse a => some a
  | _ => none

/-- No node is handed out for this queue while an `Enqueue` expects it to be the
last one, and no node gets the tag under which an operation goes by it. -/
def Spared (w : World T) (e : ℕ × Event T) (_ : World T) : Prop :=
  (∀ a ∈ e.2.reuses, ∀ r ∈ w.threads, r.expects ≠ some a) ∧
  ∀ new ∈ w.threads[e.1]?.bind (Pc.makes w.shared), ∀ r ∈ w.threads, r.word ≠ some new

instance decidableSpared (w : World T) (e : ℕ × Event T) (w' : World T) :
    Decidable (Spared w e w') :=
  have (a : Address) : Decidable (∀ r ∈ w.threads, r.expects ≠ some a) := List.decidableBAll ..
  have (new : BitVec 64) : Decidable (∀ r ∈ w.threads, r.word ≠ some new) :=
    List.decidableBAll ..
  have : Decidable (∀ a ∈ e.2.reuses, ∀ r ∈ w.threads, r.expects ≠ some a) :=
    Option.decidableForallMem _
  have : Decidable (∀ new ∈ w.threads[e.1]?.bind (Pc.makes w.shared),
    ∀ r ∈ w.threads, r.word ≠ some new) := Option.decidableForallMem _
  inferInstanceAs (Decidable (_ ∧ _))

end TLSLockFreeQueue

end NetLib
