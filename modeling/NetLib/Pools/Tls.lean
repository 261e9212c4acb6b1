import Mathlib.Algebra.Order.Ring.Int
import Mathlib.Data.Int.Notation
import Mathlib.Data.List.Forall2
import Mathlib.Data.List.Range
import NetLib.Library.Linked
import NetLib.Library.Pool
/-!
# `TlsPool`

Every thread has a list of free nodes of its own, and lists of exactly
`_localPoolSize` nodes, the buckets, are on a stack for all of them. An `Alloc`
that finds the thread's list empty takes a bucket for it, or makes two; a
`Free` that leaves more than two buckets' worth on the list cuts one off.

The stack of buckets is a concurrent stack that works, so that its operations
are one step each, as the interlocked ones are. What the code does between two
of these is one step too, or a few.
-/

namespace NetLib

/-- What `TlsPool` uses of a thread's `SingleThreadObjectPool`. A node is its
address. -/
structure SingleThreadObjectPool where
  top : Option ℕ
  objectCount : ℤ
  allocCount : ℤ
  deriving DecidableEq

namespace TlsPool

/-- `controlData` -/
structure ControlData where
  front : Option ℕ
  «end» : Option ℕ
  deriving DecidableEq

/-- The program points of `Alloc` and `Free`, and of what they call. -/
inductive Pc
  | idle
  -- Alloc
  | acquire
  | pop
  | makeSpare
  | makeControl (cb1 : ControlData)
  | pushSpare (cb1 retCb : ControlData)
  | countEmpty (retCb : ControlData)
  | addPooled (retCb : ControlData)
  | subPooled (data : ControlData)
  | install (cb : ControlData)
  | alloc
  -- Free
  | free (data : ℕ)
  | checkCount
  | cut
  | pushRelease (cb : ControlData)
  | countRelease
  | addReleased
  | subCount
  /-- A null pointer was followed. -/
  | crashed
  deriving DecidableEq

/-- A thread; what `TlsGetValue` gives it is null at first. -/
structure Thread where
  pool : Option SingleThreadObjectPool
  pc : Pc
  deriving DecidableEq

end TlsPool

open TlsPool in
/-- The pool. `malloc` gives the next addresses. -/
structure TlsPool where
  tail : ℕ → Option ℕ
  created : ℕ
  nextBucket : List ControlData
  pooledNodeSize : ℤ
  acquireCount : ℤ
  releaseCount : ℤ
  poolEmptyCount : ℤ
  /-- What the callers hold; history. -/
  hands : List ℕ

namespace TlsPool

/-- The loop of `MakeControl`, with `i` rounds to go. -/
def link (tail : ℕ → Option ℕ) (newNode : ℕ) : ℕ → (ℕ → Option ℕ) × ℕ
  | 0 => (tail, newNode)
  | i + 1 => link (Function.update tail newNode (some (newNode + 1))) (newNode + 1) i

def MakeControl (localPoolSize : ℤ) (s : TlsPool) : ControlData × TlsPool :=
  let newTop := s.created
  let (tail, newNode) := link s.tail newTop (localPoolSize - 1).toNat
  (⟨some newTop, some newNode⟩, { s with
    tail := Function.update tail newNode none
    created := s.created + localPoolSize.toNat })

/-- A round of the loop in the constructor. -/
def addBucket (localPoolSize : ℤ) (s : TlsPool) : TlsPool :=
  let (cb, s) := s.MakeControl localPoolSize
  { s with nextBucket := cb :: s.nextBucket }

/-- The constructor. -/
def init (localPoolSize globalPoolMultiplier : ℤ) : TlsPool :=
  (addBucket localPoolSize)^[globalPoolMultiplier.toNat]
    ⟨fun _ => none, 0, [], globalPoolMultiplier, 0, 0, 0, []⟩

/-- The loop in `Free` that goes on from `releaseTail`, with `i` rounds to go;
`none` is the null pointer, which is followed if it is met in the loop. -/
def walk (tail : ℕ → Option ℕ) (releaseTail : Option ℕ) : ℕ → Option ℕ
  | 0 => releaseTail
  | i + 1 =>
    match releaseTail with
    | none => none
    | some n => walk tail (tail n) i

/-- `_localPoolSize * 2`, which is an `int`. -/
def doubled (localPoolSize : ℤ) : ℤ := (localPoolSize * 2).bmod (2 ^ 32)

/-- The thread's pool, `new poolType(0)` at first. -/
def Thread.getPool (th : Thread) : SingleThreadObjectPool := th.pool.getD ⟨none, 0, 0⟩

inductive Event
  | go
  | alloc
  | free (data : ℕ)
  deriving DecidableEq

/-- The next step of a thread in a call, with the thread's own pool. -/
def go (localPoolSize : ℤ) (s : TlsPool) (pool : SingleThreadObjectPool) :
    Pc → Option (TlsPool × SingleThreadObjectPool × Pc)
  | .idle => none
  | .acquire => some ({ s with acquireCount := s.acquireCount + 1 }, pool, .pop)
  | .pop =>
    match s.nextBucket with
    | [] => some (s, pool, .makeSpare)
    | data :: rest => some ({ s with nextBucket := rest }, pool, .subPooled data)
  | .makeSpare =>
    some ((s.MakeControl localPoolSize).2, pool, .makeControl (s.MakeControl localPoolSize).1)
  | .makeControl cb1 =>
    some ((s.MakeControl localPoolSize).2, pool, .pushSpare cb1 (s.MakeControl localPoolSize).1)
  | .pushSpare cb1 retCb =>
    some ({ s with nextBucket := cb1 :: s.nextBucket }, pool, .countEmpty retCb)
  | .countEmpty retCb =>
    some ({ s with poolEmptyCount := s.poolEmptyCount + 1 }, pool, .addPooled retCb)
  | .addPooled retCb =>
    some ({ s with pooledNodeSize := s.pooledNodeSize + 1 }, pool, .install retCb)
  | .subPooled data =>
    some ({ s with pooledNodeSize := s.pooledNodeSize - 1 }, pool, .install data)
  | .install cb => some (s, { pool with top := cb.front, objectCount := localPoolSize }, .alloc)
  | .alloc =>
    match pool.top with
    | some top => some ({ s with hands := top :: s.hands },
        { pool with top := s.tail top, objectCount := pool.objectCount - 1 }, .idle)
    | none => some ({ s with created := s.created + 1, hands := s.created :: s.hands },
        { pool with allocCount := pool.allocCount + 1 }, .idle)
  | .free data => some ({ s with tail := Function.update s.tail data pool.top },
      { pool with top := some data, objectCount := pool.objectCount + 1 }, .checkCount)
  | .checkCount => some (s, pool, if pool.objectCount > doubled localPoolSize then .cut else .idle)
  | .cut =>
    match walk s.tail pool.top (localPoolSize - 1).toNat with
    | none => some (s, pool, .crashed)
    | some releaseTail => some ({ s with tail := Function.update s.tail releaseTail none },
        { pool with top := s.tail releaseTail }, .pushRelease ⟨pool.top, some releaseTail⟩)
  | .pushRelease cb => some ({ s with nextBucket := cb :: s.nextBucket }, pool, .countRelease)
  | .countRelease => some ({ s with releaseCount := s.releaseCount + 1 }, pool, .addReleased)
  | .addReleased => some ({ s with pooledNodeSize := s.pooledNodeSize + 1 }, pool, .subCount)
  | .subCount => some (s, { pool with objectCount := pool.objectCount - localPoolSize }, .idle)
  | .crashed => none

/-- The next step of a thread. Only what is in the callers' hands is freed. -/
def next (localPoolSize : ℤ) (s : TlsPool) (th : Thread) : Event → Option (TlsPool × Thread)
  | .alloc =>
    if th.pc = .idle then
      some (s, ⟨some th.getPool, if th.getPool.objectCount = 0 then .acquire else .alloc⟩)
    else none
  | .free data =>
    if th.pc = .idle ∧ data ∈ s.hands then
      some ({ s with hands := s.hands.erase data }, ⟨some th.getPool, .free data⟩)
    else none
  | .go => (go localPoolSize s th.getPool th.pc).map fun r => (r.1, ⟨some r.2.1, r.2.2⟩)

abbrev World := Pool TlsPool Thread

abbrev step (localPoolSize : ℤ) : World → ℕ × Event → Option World :=
  Pool.step (next localPoolSize)

/-- `n` threads that have not come to the pool yet. -/
def World.initial (localPoolSize globalPoolMultiplier : ℤ) (n : ℕ) : World :=
  ⟨init localPoolSize globalPoolMultiplier, List.replicate n ⟨none, .idle⟩⟩

/-! ## What holds -/

/-- A bucket of the nodes `l`. -/
structure IsBucket (localPoolSize : ℤ) (tail : ℕ → Option ℕ) (cb : ControlData) (l : List ℕ) :
    Prop where
  linked : Linked tail cb.front l
  length : l.length = localPoolSize
  «end» : l.getLast? = cb.end

/-- The thread's list is `l`, and counted. -/
structure IsLocal (tail : ℕ → Option ℕ) (pool : SingleThreadObjectPool) (l : List ℕ) : Prop where
  linked : Linked tail pool.top l
  count : pool.objectCount = l.length

/-- The node lists are consistent: with each thread are the nodes of `held`,
and in each bucket those of `buckets`. What a thread holds in the middle of a
call is the call's. -/
structure Consistent (localPoolSize : ℤ) (w : World) (held buckets : List (List ℕ)) : Prop where
  length : held.length = w.threads.length
  idle : ∀ (i : ℕ) (th : Thread) (l : List ℕ), w.threads[i]? = some th → held[i]? = some l →
    th.pc = .idle → IsLocal w.shared.tail th.getPool l ∧ l.length ≤ 2 * localPoolSize
  stack : List.Forall₂ (IsBucket localPoolSize w.shared.tail) w.shared.nextBucket buckets
  /-- Every node is at one place. -/
  place : (held.flatten ++ buckets.flatten ++ w.shared.hands).Perm (List.range w.shared.created)
  neverCrashed : ∀ th ∈ w.threads, th.pc ≠ .crashed
  /-- The empty list is never met. -/
  noFallback : ∀ th ∈ w.threads, th.getPool.allocCount = 0
  pooled : (∀ th ∈ w.threads, th.pc = .idle) → w.shared.pooledNodeSize = w.shared.nextBucket.length

/-! ## The parts of a call -/

variable {localPoolSize globalPoolMultiplier : ℤ} {tail tail' : ℕ → Option ℕ} {s s' : TlsPool}
variable {pool : SingleThreadObjectPool} {cb : ControlData} {l l' : List ℕ} {th th' : Thread}
variable {held buckets buckets' : List (List ℕ)} {w w' : World}

theorem IsBucket.congr (h : IsBucket localPoolSize tail cb l) (hsame : ∀ n ∈ l, tail' n = tail n) :
    IsBucket localPoolSize tail' cb l :=
  ⟨h.linked.congr hsame, h.length, h.end⟩

theorem IsLocal.congr (h : IsLocal tail pool l) (hsame : ∀ n ∈ l, tail' n = tail n) :
    IsLocal tail' pool l :=
  ⟨h.linked.congr hsame, h.count⟩

theorem link_spec (tail : ℕ → Option ℕ) (a k : ℕ) : (link tail a k).2 = a + k ∧
    (∀ n, n < a ∨ a + k ≤ n → (link tail a k).1 n = tail n) ∧
    ∀ n, a ≤ n → n < a + k → (link tail a k).1 n = some (n + 1) := by
  induction k generalizing tail a with
  | zero => exact ⟨rfl, fun n hn => rfl, fun n hn hn' => absurd hn' (Nat.not_lt.2 hn)⟩
  | succ k ih =>
    obtain ⟨hlast, hout, hin⟩ := ih (Function.update tail a (some (a + 1))) (a + 1)
    rw [link]
    refine ⟨by omega, fun n hn => ?_, fun n hn hn' => ?_⟩
    · rw [hout n (by omega), Function.update_of_ne (by omega)]
    · rcases hn.eq_or_lt with rfl | hlt
      · rw [hout a (by omega), Function.update_self]
      · exact hin n hlt (by omega)

theorem makeControl_created (localPoolSize : ℤ) (s : TlsPool) :
    (s.MakeControl localPoolSize).2.created = s.created + localPoolSize.toNat := rfl

theorem makeControl_hands (localPoolSize : ℤ) (s : TlsPool) :
    (s.MakeControl localPoolSize).2.hands = s.hands := rfl

/-- **`MakeControl` makes a bucket** of new nodes. -/
theorem makeControl_spec (hL : 1 ≤ localPoolSize) (s : TlsPool) :
    IsBucket localPoolSize (s.MakeControl localPoolSize).2.tail (s.MakeControl localPoolSize).1
      (List.range' s.created localPoolSize.toNat) ∧
    ∀ n, n ∉ List.range' s.created localPoolSize.toNat →
      (s.MakeControl localPoolSize).2.tail n = s.tail n := by
  obtain ⟨k, rfl⟩ : ∃ k : ℕ, localPoolSize = k + 1 := ⟨(localPoolSize - 1).toNat, by omega⟩
  obtain ⟨hlast, hout, hin⟩ := link_spec s.tail s.created k
  simp only [MakeControl, Int.toNat_natCast_add_one, add_sub_cancel_right, Int.toNat_natCast, hlast]
  refine ⟨⟨Linked.range' (fun n hn hn' => ?_) (Function.update_self _ _ _), by simp, ?_⟩,
    fun n hn => ?_⟩
  · rw [Function.update_of_ne (by omega), hin n hn hn']
  · rw [List.range'_concat]
    simp
  · rw [List.mem_range'_1] at hn
    rw [Function.update_of_ne (by omega), hout n (by omega)]

theorem count_range' (a k n : ℕ) : (List.range' a k).count n + (if n < a then 1 else 0) =
    if n < a + k then 1 else 0 := by
  rw [List.Nodup.count List.nodup_range']
  simp only [List.mem_range'_1]
  split <;> split <;> split <;> omega

/-- The loop in `Free` passes over as many nodes as it makes rounds. -/
theorem walk_append {p : Option ℕ} (h : Linked tail p (l ++ l')) :
    walk tail p l.length = l'.head? := by
  induction l generalizing p with
  | nil => exact h.head
  | cons n l ih =>
    obtain ⟨rfl, h⟩ := h
    exact ih h

/-! ## The invariant -/

/-- A bucket was pushed that is not in `_pooledNodeSize` yet. -/
def Pc.pushed : Pc → ℕ
  | .countEmpty _ | .addPooled _ | .countRelease | .addReleased => 1
  | _ => 0

/-- A bucket was popped that is in `_pooledNodeSize` still. -/
def Pc.popped : Pc → ℕ
  | .subPooled _ => 1
  | _ => 0

/-- The nodes `l` are with the thread, at this program point. -/
def Pc.Holds (localPoolSize : ℤ) (tail : ℕ → Option ℕ) (pool : SingleThreadObjectPool)
    (l : List ℕ) : Pc → Prop
  | .idle => IsLocal tail pool l ∧ l.length ≤ 2 * localPoolSize
  | .acquire | .pop | .makeSpare => l = []
  | .makeControl cb1 => IsBucket localPoolSize tail cb1 l
  | .pushSpare cb1 retCb => ∃ l₁ l₂, l = l₁ ++ l₂ ∧ IsBucket localPoolSize tail cb1 l₁ ∧
      IsBucket localPoolSize tail retCb l₂
  | .countEmpty cb | .addPooled cb | .subPooled cb | .install cb =>
      IsBucket localPoolSize tail cb l
  | .alloc => IsLocal tail pool l ∧ 1 ≤ l.length ∧ l.length ≤ 2 * localPoolSize
  | .free data => ∃ l', l = data :: l' ∧ IsLocal tail pool l' ∧ l'.length ≤ 2 * localPoolSize
  | .checkCount => IsLocal tail pool l ∧ l.length ≤ 2 * localPoolSize + 1
  | .cut => IsLocal tail pool l ∧ l.length = 2 * localPoolSize + 1
  | .pushRelease cb => ∃ l₁ l₂, l = l₁ ++ l₂ ∧ IsBucket localPoolSize tail cb l₁ ∧
      Linked tail pool.top l₂ ∧ pool.objectCount = l₂.length + localPoolSize ∧
      l₂.length = localPoolSize + 1
  | .countRelease | .addReleased | .subCount => Linked tail pool.top l ∧
      pool.objectCount = l.length + localPoolSize ∧ l.length = localPoolSize + 1
  | .crashed => False

/-- What a thread holds depends on its own nodes only. -/
theorem Pc.Holds.congr {pc : Pc} (h : pc.Holds localPoolSize tail pool l)
    (hsame : ∀ n ∈ l, tail' n = tail n) : pc.Holds localPoolSize tail' pool l := by
  cases pc with
  | idle => exact ⟨h.1.congr hsame, h.2⟩
  | acquire | pop | makeSpare => exact h
  | makeControl cb1 => exact IsBucket.congr h hsame
  | pushSpare cb1 retCb =>
    obtain ⟨l₁, l₂, rfl, h₁, h₂⟩ := h
    exact ⟨l₁, l₂, rfl, h₁.congr fun n hn => hsame n (List.mem_append_left l₂ hn),
      h₂.congr fun n hn => hsame n (List.mem_append_right l₁ hn)⟩
  | countEmpty cb | addPooled cb | subPooled cb | install cb => exact IsBucket.congr h hsame
  | alloc => exact ⟨h.1.congr hsame, h.2⟩
  | free data =>
    obtain ⟨l', rfl, hlocal, hle⟩ := h
    exact ⟨l', rfl, hlocal.congr fun n hn => hsame n (List.mem_cons_of_mem data hn), hle⟩
  | checkCount | cut => exact ⟨h.1.congr hsame, h.2⟩
  | pushRelease cb =>
    obtain ⟨l₁, l₂, rfl, h₁, h₂, hlen⟩ := h
    exact ⟨l₁, l₂, rfl, h₁.congr fun n hn => hsame n (List.mem_append_left l₂ hn),
      h₂.congr fun n hn => hsame n (List.mem_append_right l₁ hn), hlen⟩
  | countRelease | addReleased | subCount => exact ⟨h.1.congr hsame, h.2⟩
  | crashed => exact h

structure Inv (localPoolSize : ℤ) (w : World) (held buckets : List (List ℕ)) : Prop where
  length : held.length = w.threads.length
  holds : ∀ (i : ℕ) (th : Thread) (l : List ℕ), w.threads[i]? = some th → held[i]? = some l →
    th.pc.Holds localPoolSize w.shared.tail th.getPool l
  noFallback : ∀ th ∈ w.threads, th.getPool.allocCount = 0
  stack : List.Forall₂ (IsBucket localPoolSize w.shared.tail) w.shared.nextBucket buckets
  /-- Every node is at one place. -/
  place : ∀ n, held.flatten.count n + buckets.flatten.count n + w.shared.hands.count n =
    if n < w.shared.created then 1 else 0
  pooled : w.shared.pooledNodeSize + w.total (·.pc.pushed) =
    w.shared.nextBucket.length + w.total (·.pc.popped)

theorem stack_congr {cbs : List ControlData}
    (h : List.Forall₂ (IsBucket localPoolSize tail) cbs buckets)
    (hsame : ∀ n ∈ buckets.flatten, tail' n = tail n) :
    List.Forall₂ (IsBucket localPoolSize tail') cbs buckets := by
  induction h with
  | nil => exact .nil
  | @cons cb b cbs buckets hb _ ih =>
    simp only [List.flatten_cons, List.mem_append] at hsame
    exact .cons (hb.congr fun n hn => hsame n (.inl hn)) (ih fun n hn => hsame n (.inr hn))

/-- What a step of a thread does to the nodes: the thread held `l` before and
holds `l'` after it, and the pointers changed are of `l'`. -/
structure Moved (localPoolSize : ℤ) (s : TlsPool) (pc : Pc) (l : List ℕ)
    (buckets : List (List ℕ)) (s' : TlsPool) (th' : Thread) (l' : List ℕ)
    (buckets' : List (List ℕ)) : Prop where
  tail : ∀ n, n ∉ l' → s'.tail n = s.tail n
  holds : th'.pc.Holds localPoolSize s'.tail th'.getPool l'
  noFallback : th'.getPool.allocCount = 0
  stack : List.Forall₂ (IsBucket localPoolSize s.tail) s'.nextBucket buckets'
  place : ∀ n, l'.count n + buckets'.flatten.count n + s'.hands.count n +
      (if n < s.created then 1 else 0) =
    l.count n + buckets.flatten.count n + s.hands.count n + if n < s'.created then 1 else 0
  pooled : s'.pooledNodeSize + th'.pc.pushed + s.nextBucket.length + pc.popped =
    s.pooledNodeSize + pc.pushed + s'.nextBucket.length + th'.pc.popped

theorem doubled_eq (hdouble : 2 * localPoolSize < 2 ^ 31) (hL : 1 ≤ localPoolSize) :
    doubled localPoolSize = 2 * localPoolSize := by
  rw [doubled, Int.bmod_eq_of_le] <;> omega

/-- A step of a call. -/
theorem go_moved (hL : 1 ≤ localPoolSize) (hdouble : 2 * localPoolSize < 2 ^ 31) {pc pc' : Pc}
    {pool' : SingleThreadObjectPool} (h : go localPoolSize s pool pc = some (s', pool', pc'))
    (hholds : pc.Holds localPoolSize s.tail pool l) (halloc : pool.allocCount = 0)
    (hstack : List.Forall₂ (IsBucket localPoolSize s.tail) s.nextBucket buckets)
    (hnodup : l.Nodup) (hlt : ∀ n ∈ l, n < s.created) :
    ∃ l' buckets', Moved localPoolSize s pc l buckets s' ⟨some pool', pc'⟩ l' buckets' := by
  cases pc with
  | idle => cases h
  | acquire =>
    obtain ⟨rfl, rfl, rfl⟩ := Prod.mk.inj (Option.some.inj h)
    exact ⟨l, buckets, fun n _ => rfl, hholds, halloc, hstack, fun n => rfl, rfl⟩
  | pop =>
    rw [go] at h
    cases hnext : s.nextBucket with
    | nil =>
      rw [hnext] at h
      obtain ⟨rfl, rfl, rfl⟩ := Prod.mk.inj (Option.some.inj h)
      exact ⟨l, buckets, fun n _ => rfl, hholds, halloc, hstack, fun n => rfl, rfl⟩
    | cons data rest =>
      rw [hnext] at h hstack
      obtain ⟨rfl, rfl, rfl⟩ := Prod.mk.inj (Option.some.inj h)
      cases hstack with
      | cons hdata hrest =>
        rename_i b buckets
        obtain rfl : l = [] := hholds
        refine ⟨b, buckets, fun n _ => rfl, hdata, halloc, hrest, fun n => ?_, ?_⟩
        · simp only [List.flatten_cons, List.count_append, List.count_nil]
          omega
        · simp only [Pc.pushed, Pc.popped, hnext, List.length_cons]
          omega
  | makeSpare =>
    obtain ⟨rfl, rfl, rfl⟩ := Prod.mk.inj (Option.some.inj h)
    obtain rfl : l = [] := hholds
    obtain ⟨hbucket, htail⟩ := makeControl_spec hL s
    refine ⟨_, buckets, htail, hbucket, halloc, hstack, fun n => ?_, rfl⟩
    have hcount := count_range' s.created localPoolSize.toNat n
    rw [makeControl_created, makeControl_hands, List.count_nil]
    omega
  | makeControl cb1 =>
    obtain ⟨rfl, rfl, rfl⟩ := Prod.mk.inj (Option.some.inj h)
    obtain ⟨hbucket, htail⟩ := makeControl_spec hL s
    have hold (n : ℕ) (hn : n ∈ l) : n ∉ List.range' s.created localPoolSize.toNat := by
      rw [List.mem_range'_1]
      exact fun hge => absurd (hlt n hn) (Nat.not_lt.2 hge.1)
    refine ⟨l ++ List.range' s.created localPoolSize.toNat, buckets,
      fun n hn => htail n fun hmem => hn (List.mem_append_right l hmem),
      ⟨l, _, rfl, IsBucket.congr hholds fun n hn => htail n (hold n hn), hbucket⟩, halloc, hstack,
      fun n => ?_, rfl⟩
    have hcount := count_range' s.created localPoolSize.toNat n
    rw [makeControl_created, makeControl_hands, List.count_append]
    omega
  | pushSpare cb1 retCb =>
    obtain ⟨rfl, rfl, rfl⟩ := Prod.mk.inj (Option.some.inj h)
    obtain ⟨l₁, l₂, rfl, h₁, h₂⟩ := hholds
    refine ⟨l₂, l₁ :: buckets, fun n _ => rfl, h₂, halloc, .cons h₁ hstack, fun n => ?_, ?_⟩
    · simp only [List.flatten_cons, List.count_append]
      omega
    · simp only [Pc.pushed, Pc.popped, List.length_cons]
      omega
  | countEmpty cb =>
    obtain ⟨rfl, rfl, rfl⟩ := Prod.mk.inj (Option.some.inj h)
    exact ⟨l, buckets, fun n _ => rfl, hholds, halloc, hstack, fun n => rfl, rfl⟩
  | addPooled cb =>
    obtain ⟨rfl, rfl, rfl⟩ := Prod.mk.inj (Option.some.inj h)
    refine ⟨l, buckets, fun n _ => rfl, hholds, halloc, hstack, fun n => rfl, ?_⟩
    simp only [Pc.pushed, Pc.popped]
    omega
  | subPooled cb =>
    obtain ⟨rfl, rfl, rfl⟩ := Prod.mk.inj (Option.some.inj h)
    refine ⟨l, buckets, fun n _ => rfl, hholds, halloc, hstack, fun n => rfl, ?_⟩
    simp only [Pc.pushed, Pc.popped]
    omega
  | install cb =>
    obtain ⟨rfl, rfl, rfl⟩ := Prod.mk.inj (Option.some.inj h)
    obtain ⟨hlinked, hlen, -⟩ := hholds
    exact ⟨l, buckets, fun n _ => rfl, ⟨⟨hlinked, hlen.symm⟩, by omega, by omega⟩, halloc, hstack,
      fun n => rfl, rfl⟩
  | alloc =>
    obtain ⟨⟨hlinked, hcount⟩, hpos, hle⟩ := hholds
    cases l with
    | nil => cases hpos
    | cons top l =>
      obtain ⟨htop, hrest⟩ := hlinked
      rw [go, htop] at h
      obtain ⟨rfl, rfl, rfl⟩ := Prod.mk.inj (Option.some.inj h)
      rw [List.length_cons] at hcount hle
      refine ⟨l, buckets, fun n _ => rfl, ⟨⟨hrest, ?_⟩, ?_⟩, halloc, hstack, fun n => ?_, rfl⟩
      · simp only [Thread.getPool, Option.getD_some]
        omega
      · omega
      · simp only [List.count_cons]
        omega
  | free data =>
    obtain ⟨rfl, rfl, rfl⟩ := Prod.mk.inj (Option.some.inj h)
    obtain ⟨l, rfl, ⟨hlinked, hcount⟩, hle⟩ := hholds
    refine ⟨data :: l, buckets, fun n hn => ?_, ⟨⟨?_, ?_⟩, ?_⟩, halloc, hstack, fun n => rfl, rfl⟩
    · exact Function.update_of_ne (List.ne_of_not_mem_cons hn) _ _
    · exact hlinked.push (List.nodup_cons.1 hnodup).1
    · simp only [Thread.getPool, Option.getD_some, List.length_cons]
      omega
    · rw [List.length_cons]
      omega
  | checkCount =>
    obtain ⟨rfl, rfl, rfl⟩ := Prod.mk.inj (Option.some.inj h)
    obtain ⟨⟨hlinked, hcount⟩, hle⟩ := hholds
    rw [doubled_eq hdouble hL]
    by_cases hmore : pool.objectCount > 2 * localPoolSize
    · rw [if_pos hmore]
      exact ⟨l, buckets, fun n _ => rfl, ⟨⟨hlinked, hcount⟩, by omega⟩, halloc, hstack,
        fun n => rfl, rfl⟩
    · rw [if_neg hmore]
      exact ⟨l, buckets, fun n _ => rfl, ⟨⟨hlinked, hcount⟩, by omega⟩, halloc, hstack,
        fun n => rfl, rfl⟩
  | cut =>
    obtain ⟨⟨hlinked, hcount⟩, hlen⟩ := hholds
    -- the walk ends at the last node of the bucket
    obtain ⟨l₁, releaseTail, l₂, rfl, hlen₁⟩ :
        ∃ l₁ n l₂, l = l₁ ++ n :: l₂ ∧ l₁.length = (localPoolSize - 1).toNat := by
      have hlt : (localPoolSize - 1).toNat < l.length := by omega
      exact ⟨_, _, _, (List.take_append_drop _ l).symm.trans
        (congrArg _ (List.drop_eq_getElem_cons hlt)), by rw [List.length_take]; omega⟩
    have hwalk := walk_append hlinked
    rw [hlen₁, List.head?_cons] at hwalk
    rw [go, hwalk] at h
    obtain ⟨rfl, rfl, rfl⟩ := Prod.mk.inj (Option.some.inj h)
    obtain ⟨hbucket, hrest⟩ := hlinked.cut hnodup
    rw [List.length_append, List.length_cons] at hlen hcount
    refine ⟨l₁ ++ releaseTail :: l₂, buckets, fun n hn => ?_,
      ⟨l₁ ++ [releaseTail], l₂, by simp, ⟨hbucket, ?_, by simp⟩, hrest, ?_, ?_⟩, halloc, hstack,
      fun n => rfl, rfl⟩
    · refine Function.update_of_ne (fun heq : n = releaseTail => hn ?_) _ _
      exact heq ▸ List.mem_append_right l₁ List.mem_cons_self
    · rw [List.length_append, List.length_singleton]
      omega
    · simp only [Thread.getPool, Option.getD_some]
      omega
    · omega
  | pushRelease cb =>
    obtain ⟨rfl, rfl, rfl⟩ := Prod.mk.inj (Option.some.inj h)
    obtain ⟨l₁, l₂, rfl, h₁, h₂⟩ := hholds
    refine ⟨l₂, l₁ :: buckets, fun n _ => rfl, h₂, halloc, .cons h₁ hstack, fun n => ?_, ?_⟩
    · simp only [List.flatten_cons, List.count_append]
      omega
    · simp only [Pc.pushed, Pc.popped, List.length_cons]
      omega
  | countRelease =>
    obtain ⟨rfl, rfl, rfl⟩ := Prod.mk.inj (Option.some.inj h)
    exact ⟨l, buckets, fun n _ => rfl, hholds, halloc, hstack, fun n => rfl, rfl⟩
  | addReleased =>
    obtain ⟨rfl, rfl, rfl⟩ := Prod.mk.inj (Option.some.inj h)
    refine ⟨l, buckets, fun n _ => rfl, hholds, halloc, hstack, fun n => rfl, ?_⟩
    simp only [Pc.pushed, Pc.popped]
    omega
  | subCount =>
    obtain ⟨rfl, rfl, rfl⟩ := Prod.mk.inj (Option.some.inj h)
    obtain ⟨hlinked, hcount, hlen⟩ := hholds
    refine ⟨l, buckets, fun n _ => rfl, ⟨⟨hlinked, ?_⟩, by omega⟩, halloc, hstack, fun n => rfl,
      rfl⟩
    simp only [Thread.getPool, Option.getD_some]
    omega
  | crashed => cases h

theorem next_moved (hL : 1 ≤ localPoolSize) (hdouble : 2 * localPoolSize < 2 ^ 31) {e : Event}
    (h : next localPoolSize s th e = some (s', th'))
    (hholds : th.pc.Holds localPoolSize s.tail th.getPool l) (halloc : th.getPool.allocCount = 0)
    (hstack : List.Forall₂ (IsBucket localPoolSize s.tail) s.nextBucket buckets)
    (hnodup : l.Nodup) (hlt : ∀ n ∈ l, n < s.created) :
    ∃ l' buckets', Moved localPoolSize s th.pc l buckets s' th' l' buckets' := by
  cases e with
  | go =>
    obtain ⟨⟨t, pool, pc⟩, hgo, heq⟩ := Option.map_eq_some_iff.1 h
    obtain ⟨rfl, rfl⟩ := Prod.mk.inj heq
    exact go_moved hL hdouble hgo hholds halloc hstack hnodup hlt
  | alloc =>
    by_cases hidle : th.pc = .idle
    · rw [next, if_pos hidle] at h
      obtain ⟨rfl, rfl⟩ := Prod.mk.inj (Option.some.inj h)
      rw [hidle] at hholds ⊢
      obtain ⟨⟨hlinked, hcount⟩, hle⟩ := hholds
      by_cases hzero : th.getPool.objectCount = 0
      · rw [if_pos hzero]
        have hnil : l = [] := List.eq_nil_of_length_eq_zero (by omega)
        exact ⟨l, buckets, fun n _ => rfl, hnil, halloc, hstack, fun n => rfl, rfl⟩
      · rw [if_neg hzero]
        exact ⟨l, buckets, fun n _ => rfl, ⟨⟨hlinked, hcount⟩, by omega, hle⟩, halloc, hstack,
          fun n => rfl, rfl⟩
    · rw [next, if_neg hidle] at h
      cases h
  | free data =>
    by_cases hfree : th.pc = .idle ∧ data ∈ s.hands
    · rw [next, if_pos hfree] at h
      obtain ⟨rfl, rfl⟩ := Prod.mk.inj (Option.some.inj h)
      obtain ⟨hidle, hmem⟩ := hfree
      rw [hidle] at hholds ⊢
      refine ⟨data :: l, buckets, fun n _ => rfl, ⟨l, rfl, hholds⟩, halloc, hstack,
        fun n => ?_, rfl⟩
      have hcount := (List.perm_cons_erase hmem).count_eq n
      simp only [List.count_cons] at hcount ⊢
      omega
    · rw [next, if_neg hfree] at h
      cases h

/-! ## Every run -/

theorem Inv.step (h : Inv localPoolSize w held buckets) (hL : 1 ≤ localPoolSize)
    (hdouble : 2 * localPoolSize < 2 ^ 31) {e : ℕ × Event}
    (hstep : step localPoolSize w e = some w') :
    ∃ held' buckets', Inv localPoolSize w' held' buckets' := by
  obtain ⟨th, th', hth, hnext, hthreads⟩ := Pool.step_eq_some hstep
  have hmem : th ∈ w.threads := List.mem_of_getElem? hth
  obtain ⟨hlen, -⟩ := List.getElem?_eq_some_iff.1 hth
  obtain ⟨l, hl⟩ : ∃ l, held[e.1]? = some l :=
    ⟨_, List.getElem?_eq_getElem (h.length.symm ▸ hlen)⟩
  have hset (l' : List ℕ) (n : ℕ) :
      (held.set e.1 l').flatten.count n + l.count n = held.flatten.count n + l'.count n := by
    rw [List.count_flatten, List.count_flatten]
    exact Pool.sum_map_set (List.count n) hl
  -- what the thread holds is there once, and nowhere else
  have hone (n : ℕ) : l.count n ≤ if n < w.shared.created then 1 else 0 := by
    have hsum := hset [] n
    have hplace := h.place n
    rw [List.count_nil] at hsum
    omega
  have hnodup : l.Nodup := List.nodup_iff_count_le_one.2 fun n => by
    have hn := hone n
    split at hn <;> omega
  have hlt (n : ℕ) (hn : n ∈ l) : n < w.shared.created := by
    by_contra hge
    have hn' := hone n
    rw [if_neg hge] at hn'
    exact absurd (List.count_pos_iff.2 hn) (by omega)
  obtain ⟨l', buckets', hmoved⟩ := next_moved hL hdouble hnext (h.holds _ _ _ hth hl)
    (h.noFallback th hmem) h.stack hnodup hlt
  have hplace (n : ℕ) : (held.set e.1 l').flatten.count n + buckets'.flatten.count n +
      w'.shared.hands.count n = if n < w'.shared.created then 1 else 0 := by
    have hold := h.place n
    have hsum := hset l' n
    have hnew := hmoved.place n
    omega
  have hwhole (n : ℕ) : (held.set e.1 l').flatten.count n + buckets'.flatten.count n ≤ 1 := by
    have hn := hplace n
    split at hn <;> omega
  obtain ⟨hlen', -⟩ := List.getElem?_eq_some_iff.1 hl
  have hl' : (held.set e.1 l')[e.1]? = some l' := List.getElem?_set_self hlen'
  refine ⟨held.set e.1 l', buckets', ?_, fun i th₁ l₁ hth₁ hl₁ => ?_, ?_, ?_, hplace, ?_⟩
  · rw [hthreads, List.length_set, List.length_set, h.length]
  · by_cases heq : e.1 = i
    · subst heq
      rw [hthreads, List.getElem?_set_self hlen] at hth₁
      obtain rfl := Option.some.inj hth₁
      obtain rfl := Option.some.inj (hl'.symm.trans hl₁)
      exact hmoved.holds
    · -- another thread's nodes are not the ones of this one
      have hold : held[i]? = some l₁ := by rwa [List.getElem?_set_ne heq] at hl₁
      rw [hthreads, List.getElem?_set_ne heq] at hth₁
      refine (h.holds i th₁ l₁ hth₁ hold).congr fun n hn => hmoved.tail n fun hn' => ?_
      have hsum := Pool.add_le_sum_map (List.count n) heq hl' hl₁
      have hle := hwhole n
      rw [List.count_flatten] at hle
      have hpos := List.count_pos_iff.2 hn
      have hpos' := List.count_pos_iff.2 hn'
      omega
  · exact Pool.forall_threads hthreads h.noFallback hmoved.noFallback
  · refine stack_congr hmoved.stack fun n hn => hmoved.tail n fun hn' => ?_
    have hle := hwhole n
    have hpos := List.count_pos_iff.2 hn
    have hpos' := List.count_pos_iff.2 (List.mem_flatten_of_mem (List.mem_of_getElem? hl') hn')
    omega
  · have hpushed := Pool.total_step (·.pc.pushed) hth hthreads
    have hpopped := Pool.total_step (·.pc.popped) hth hthreads
    have hpooled := h.pooled
    have hmove := hmoved.pooled
    omega

/-- The constructor. -/
theorem inv_init (hL : 1 ≤ localPoolSize) (k : ℕ) (pooled : ℤ) : ∃ buckets : List (List ℕ),
    let s := (addBucket localPoolSize)^[k] ⟨fun _ => none, 0, [], pooled, 0, 0, 0, []⟩
    List.Forall₂ (IsBucket localPoolSize s.tail) s.nextBucket buckets ∧
      (∀ n, buckets.flatten.count n = if n < s.created then 1 else 0) ∧
      s.nextBucket.length = k ∧ s.pooledNodeSize = pooled ∧ s.hands = [] := by
  induction k with
  | zero => exact ⟨[], .nil, fun n => rfl, rfl, rfl, rfl⟩
  | succ k ih =>
    obtain ⟨buckets, hstack, hplace, hlen, hpooled, hhands⟩ := ih
    rw [Function.iterate_succ_apply']
    generalize (addBucket localPoolSize)^[k] _ = s at hstack hplace hlen hpooled hhands
    obtain ⟨hbucket, htail⟩ := makeControl_spec hL s
    refine ⟨List.range' s.created localPoolSize.toNat :: buckets, .cons hbucket ?_, fun n => ?_,
      congrArg (· + 1) hlen, hpooled, hhands⟩
    · refine stack_congr hstack fun n hn => htail n fun hmem => ?_
      have hpos := List.count_pos_iff.2 hn
      rw [hplace, if_neg (Nat.not_lt.2 (List.mem_range'_1.1 hmem).1)] at hpos
      exact lt_irrefl 0 hpos
    · have hcount := count_range' s.created localPoolSize.toNat n
      have hold := hplace n
      rw [List.flatten_cons, List.count_append]
      change _ = if n < s.created + localPoolSize.toNat then 1 else 0
      omega

theorem inv_initial (hL : 1 ≤ localPoolSize) (hM : 0 ≤ globalPoolMultiplier) (n : ℕ) :
    ∃ buckets, Inv localPoolSize (World.initial localPoolSize globalPoolMultiplier n)
      (List.replicate n []) buckets := by
  obtain ⟨buckets, hstack, hplace, hlen, hpooled, hhands⟩ :=
    inv_init hL globalPoolMultiplier.toNat globalPoolMultiplier
  refine ⟨buckets, by simp [World.initial], fun i th l hth hl => ?_, fun th hth => ?_, hstack,
    fun m => ?_, ?_⟩
  · obtain rfl := List.eq_of_mem_replicate (List.mem_of_getElem? hth)
    obtain rfl := List.eq_of_mem_replicate (List.mem_of_getElem? hl)
    exact ⟨⟨rfl, rfl⟩, by simp only [List.length_nil]; omega⟩
  · obtain rfl := List.eq_of_mem_replicate hth
    rfl
  · have hhands' : (World.initial localPoolSize globalPoolMultiplier n).shared.hands = [] := hhands
    have hplace' (m : ℕ) : buckets.flatten.count m =
        if m < (World.initial localPoolSize globalPoolMultiplier n).shared.created then 1 else 0 :=
      hplace m
    rw [hhands', hplace' m]
    simp
  · have hlen' :
        ((World.initial localPoolSize globalPoolMultiplier n).shared.nextBucket.length : ℤ) =
        globalPoolMultiplier :=
      (congrArg Nat.cast hlen).trans (Int.toNat_of_nonneg hM)
    have hpooled' : (World.initial localPoolSize globalPoolMultiplier n).shared.pooledNodeSize =
        globalPoolMultiplier := hpooled
    rw [hlen', hpooled', Pool.total_eq_zero fun th hth => ?_, Pool.total_eq_zero fun th hth => ?_]
    all_goals
      obtain rfl := List.eq_of_mem_replicate hth
      rfl

theorem Inv.consistent (h : Inv localPoolSize w held buckets) :
    Consistent localPoolSize w held buckets := by
  have hget (th : Thread) (hth : th ∈ w.threads) : ∃ l,
      th.pc.Holds localPoolSize w.shared.tail th.getPool l := by
    obtain ⟨i, hi⟩ := List.mem_iff_getElem?.1 hth
    obtain ⟨hlt, -⟩ := List.getElem?_eq_some_iff.1 hi
    exact ⟨_, h.holds i th _ hi (List.getElem?_eq_getElem (h.length.symm ▸ hlt))⟩
  refine ⟨h.length, fun i th l hth hl hidle => ?_, h.stack, ?_, fun th hth hcrashed => ?_,
    h.noFallback, fun hidle => ?_⟩
  · have hholds := h.holds i th l hth hl
    rwa [hidle] at hholds
  · refine List.perm_iff_count.2 fun n => ?_
    rw [List.count_append, List.count_append, h.place n, List.Nodup.count List.nodup_range]
    simp only [List.mem_range]
  · obtain ⟨l, hholds⟩ := hget th hth
    rwa [hcrashed] at hholds
  · have hpushed : w.total (·.pc.pushed) = 0 :=
      Pool.total_eq_zero fun th hth => congrArg Pc.pushed (hidle th hth)
    have hpopped : w.total (·.pc.popped) = 0 :=
      Pool.total_eq_zero fun th hth => congrArg Pc.popped (hidle th hth)
    have hpooled := h.pooled
    omega

/-- **The node lists stay consistent**, whatever the threads do. -/
theorem nodes_consistent (hL : 1 ≤ localPoolSize) (hdouble : 2 * localPoolSize < 2 ^ 31)
    (hM : 0 ≤ globalPoolMultiplier) (n : ℕ)
    (h : Runs (step localPoolSize) (fun _ _ _ => True)
      (World.initial localPoolSize globalPoolMultiplier n) w) :
    ∃ held buckets, Consistent localPoolSize w held buckets := by
  obtain ⟨buckets₀, hinit⟩ := inv_initial hL hM n
  obtain ⟨held, buckets, hinv⟩ :=
    h.invariant (I := fun w => ∃ held buckets, Inv localPoolSize w held buckets)
      ⟨_, buckets₀, hinit⟩ fun ⟨_, _, hv⟩ hst _ => hv.step hL hdouble hst
  exact ⟨held, buckets, hinv.consistent⟩

/-- One thread allocates a node, another frees it. -/
def handOver : List (ℕ × Event) :=
  [(0, .alloc), (0, .go), (0, .go), (0, .go), (0, .go), (0, .go), (1, .free 0), (1, .go), (1, .go)]

theorem exec_handOver : ∃ w, exec (step 2) (World.initial 2 1 2) handOver = some w :=
  ⟨_, rfl⟩

theorem nodes_consistent_handOver : ∃ w, exec (step 2) (World.initial 2 1 2) handOver = some w ∧
    ∃ held buckets, Consistent 2 w held buckets := by
  obtain ⟨w, hexec⟩ := exec_handOver
  have hrun : Runs (step 2) (fun _ _ _ => True) (World.initial 2 1 2) w := Runs.of_exec hexec
  exact ⟨w, hexec, nodes_consistent (by decide) (by decide) (by decide) 2 hrun⟩

/-! ## Sizes that are no sizes -/

theorem walk_none (tail : ℕ → Option ℕ) (i : ℕ) : walk tail none i = none := by
  cases i <;> rfl

/-- `_localPoolSize * 2` is negative where it is too large for an `int`. -/
theorem doubled_neg (hL : 2 ^ 30 ≤ localPoolSize) (hint : localPoolSize < 2 ^ 31) :
    doubled localPoolSize < 0 := by
  rw [doubled, ← Int.sub_bmod_right, Int.bmod_eq_of_le] <;> omega

/-- The first node of a pool with one bucket. -/
theorem alloc_solo (localPoolSize : ℤ) : ∃ s th,
    Pool.solo (next localPoolSize) (init localPoolSize 1) ⟨none, .idle⟩
      [.alloc, .go, .go, .go, .go, .go] = some (s, th) ∧ s.hands = [0] :=
  ⟨_, _, rfl, rfl⟩

/-- A `Free` that cuts a list of one node follows the null pointer behind it. -/
theorem free_solo {s : TlsPool} (hhands : s.hands = [0]) (hcut : 1 > doubled localPoolSize)
    (hlong : 2 ≤ localPoolSize) : ∃ s' th,
    Pool.solo (next localPoolSize) s ⟨none, .idle⟩ [.free 0, .go, .go, .go] = some (s', th) ∧
      th.pc = .crashed := by
  obtain ⟨k, hk⟩ : ∃ k, (localPoolSize - 1).toNat = k + 1 :=
    ⟨(localPoolSize - 2).toNat, by omega⟩
  have hheld : 0 ∈ s.hands := hhands ▸ List.mem_singleton_self 0
  have hwalk : walk (Function.update s.tail 0 none) (some 0) (k + 1) = none := by
    rw [walk, Function.update_self, walk_none]
  let s' : TlsPool := { s with
    hands := s.hands.erase 0, tail := Function.update s.tail 0 none }
  let pool : SingleThreadObjectPool := ⟨some 0, 1, 0⟩
  have hfree : Pool.solo (next localPoolSize) s ⟨none, .idle⟩ [.free 0, .go] =
      some (s', ⟨some pool, .checkCount⟩) := by
    simp only [Pool.solo, next, go, Thread.getPool, Option.getD_none, Option.getD_some, hheld,
      and_self, if_true, Option.map_some, Option.bind_some, zero_add, s', pool]
  have hcount : Pool.solo (next localPoolSize) s' ⟨some pool, .checkCount⟩ [.go] =
      some (s', ⟨some pool, .cut⟩) := by
    simp only [Pool.solo, next, go, Thread.getPool, Option.getD_some, Option.map_some,
      Option.bind_some, hcut, if_true, pool]
  have hwalked : Pool.solo (next localPoolSize) s' ⟨some pool, .cut⟩ [.go] =
      some (s', ⟨some pool, .crashed⟩) := by
    simp only [Pool.solo, next, go, Thread.getPool, Option.getD_some, Option.map_some,
      Option.bind_some, hk, hwalk, s', pool]
  exact ⟨s', _, Pool.solo_append hfree (Pool.solo_append hcount hwalked), rfl⟩

/-- A list that is cut too early is too short to be cut. -/
theorem handOver_crashes (hL : 2 ^ 30 ≤ localPoolSize) (hint : localPoolSize < 2 ^ 31) :
    ∃ w, exec (step localPoolSize) (World.initial localPoolSize 1 2) (handOver ++ [(1, .go)]) =
      some w ∧ ∃ th ∈ w.threads, th.pc = .crashed := by
  have hcut : 1 > doubled localPoolSize := lt_trans (doubled_neg hL hint) Int.one_pos
  obtain ⟨s, th, halloc, hhands⟩ := alloc_solo localPoolSize
  obtain ⟨s', th', hfree, hcrashed⟩ := free_solo hhands hcut (by omega)
  have hfirst := Pool.exec_of_solo (w := World.initial localPoolSize 1 2) (i := 0) rfl halloc
  have hsecond := Pool.exec_of_solo (w := ⟨s, [th, ⟨none, .idle⟩]⟩) (i := 1) rfl hfree
  have hrun := exec_append hfirst hsecond
  exact ⟨_, hrun, th', List.mem_cons_of_mem _ List.mem_cons_self, hcrashed⟩

/-- Where the size of two buckets is too large for an `int`, `Free` cuts a list
that is too short; and a negative number of buckets is not the size of a
stack. -/
theorem nodes_inconsistent :
    (∃ w, Runs (step (2 ^ 30)) (fun _ _ _ => True) (World.initial (2 ^ 30) 1 2) w ∧
      ¬∃ held buckets, Consistent (2 ^ 30) w held buckets) ∧
    ¬∃ held buckets, Consistent 1 (World.initial 1 (-1) 1) held buckets := by
  constructor
  · obtain ⟨w, hexec, th, hth, hcrashed⟩ :=
      handOver_crashes (by decide : (2 : ℤ) ^ 30 ≤ 2 ^ 30) (by decide)
    refine ⟨w, Runs.of_exec hexec, fun ⟨held, buckets, h⟩ => ?_⟩
    exact h.neverCrashed th hth hcrashed
  · rintro ⟨held, buckets, h⟩
    have hpooled := h.pooled fun th hth => by
      obtain rfl := List.eq_of_mem_replicate hth
      rfl
    exact absurd hpooled (by decide)

end TlsPool

end NetLib
