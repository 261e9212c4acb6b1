import Mathlib.Data.List.Nodup
import NetLib.Queue.TlsLockFree
/-!
# `TLSLockFreeQueue` is a FIFO queue

The words that were linked, in their order, say what the queue is: the head is
one of them, the tail the same or a later one, but at most one before the last.
Where the tail is behind the head, the `Dequeue` that has moved the head has its
node still. An operation that goes by a word knows its place, and that it has
not come again.
-/

namespace NetLib

namespace TLSLockFreeQueue

open LockFreeData

variable {T : Type}

/-! ## Words -/

theorem pointer_eq (w : BitVec 64) : pointer w = w.setWidth 47 := by
  refine BitVec.eq_of_toNat_eq ?_
  rw [pointer_toNat, BitVec.toNat_setWidth]

@[simp] theorem pointer_setWidth (a : Address) : pointer (a.setWidth 64) = a := by
  rw [pointer_eq, BitVec.setWidth_setWidth_of_le a (by decide), BitVec.setWidth_eq]

@[simp] theorem pointer_newTail (a : Address) (c : BitVec 16) : pointer (newTail a c) = a := by
  rw [pointer_eq]
  refine BitVec.eq_of_getLsbD_eq fun i hi => ?_
  rw [newTail, BitVec.getLsbD_setWidth, BitVec.getLsbD_or, BitVec.getLsbD_setWidth,
    BitVec.getLsbD_shiftLeft]
  simp [hi, (by omega : i < 64)]

/-! ## The invariant -/

/-- The node of an `Enqueue` that is not linked yet. -/
def Pc.fresh : Pc T → Option Address
  | .setData a _ | .setNext a _ | .incTailCount a _ => some a
  | .loadTail new _ | .loadNext new _ _ _ | .casNext new _ _ _ | .helpNext new _ _ _
  | .helpTail new _ _ _ _ => some (pointer new)
  | _ => none

/-- The tail to be of an `Enqueue` that is not linked yet. -/
def Pc.new : Pc T → Option (BitVec 64)
  | .loadTail new _ | .loadNext new _ _ _ | .casNext new _ _ _ | .helpNext new _ _ _
  | .helpTail new _ _ _ _ => some new
  | _ => none

/-- The node of a `Dequeue` that it has taken out and not freed yet. -/
def Pc.taken : Pc T → Option Address
  | .tailAfter h _ | .fixNext h _ | .fixTail h _ _ | .free h _ => some (pointer h)
  | _ => none

/-- Does the node belong to the thread? -/
def Pc.owns (a : Address) (q : Pc T) : ℕ :=
  if q.fresh = some a ∨ q.taken = some a then 1 else 0

/-- Is the thread about to see that the tail is not behind? -/
def Pc.fixes (i : ℕ) : Pc T → Prop
  | .tailAfter _ j | .fixNext _ j | .fixTail _ j _ => j = i
  | _ => False

/-- The word is the `i`-th, and has not come again. -/
def Held (s : TLSLockFreeQueue T) (u : BitVec 64) (i : ℕ) : Prop :=
  s.words[i]? = some u ∧ ∀ j, i < j → s.words[j]? ≠ some u

/-- The tail an `Enqueue` goes by. -/
def TailAt (s : TLSLockFreeQueue T) (u : BitVec 64) (i : ℕ) : Prop := Held s u i ∧ i ≤ s.moved

/-- The head a `Dequeue` goes by. -/
def HeadAt (s : TLSLockFreeQueue T) (u : BitVec 64) (i : ℕ) : Prop :=
  Held s u i ∧ i ≤ s.dequeued.length

/-- The fields of a node that is about to be linked. -/
def Ready (id : BitVec 64) (s : TLSLockFreeQueue T) (a : Address) (x : T) : Prop :=
  s.data a = x ∧ s.next a = id

/-- What a thread knows. -/
def Pc.Knows (id : BitVec 64) (s : TLSLockFreeQueue T) : Pc T → Prop
  | .setNext a x => s.data a = x
  | .incTailCount a x => Ready id s a x
  | .loadTail new x => Ready id s (pointer new) x
  | .loadNext new x t i | .casNext new x t i =>
    Ready id s (pointer new) x ∧ TailAt s t i ∧
      ∀ j u, i < j → s.words[j]? = some u → pointer u ≠ pointer t
  | .casTail new t i => TailAt s t i ∧ s.words[i + 1]? = some new
  | .helpNext new x t i =>
    Ready id s (pointer new) x ∧ TailAt s t i ∧ (i < s.moved ∨ i + 1 < s.words.length)
  | .helpTail new x t i v =>
    Ready id s (pointer new) x ∧ TailAt s t i ∧ (i < s.moved ∨ s.words[i + 1]? = some v)
  | .headNext h i => HeadAt s h i
  | .getData h i v => HeadAt s h i ∧ (i < s.dequeued.length ∨ s.words[i + 1]? = some v)
  | .casHead h i v x =>
    HeadAt s h i ∧ (i < s.dequeued.length ∨ s.words[i + 1]? = some v ∧ s.enqueued[i]? = some x)
  | .tailAfter h i | .fixNext h i =>
    Held s h i ∧ i < s.dequeued.length ∧ s.words[i + 1]? = some (s.next (pointer h))
  | .fixTail h i v =>
    Held s h i ∧ i < s.dequeued.length ∧ s.words[i + 1]? = some v ∧ s.next (pointer h) = v
  | .free _ i => i < s.moved
  | _ => True

/-- The nodes from the head on. -/
def live (s : TLSLockFreeQueue T) : List Address :=
  (s.words.drop s.dequeued.length).map pointer

/-- The last node that was linked. -/
def IsLast (s : TLSLockFreeQueue T) (a : Address) : Prop :=
  ∃ u, s.words[s.enqueued.length]? = some u ∧ pointer u = a

/-- What the shared memory is, as the history has it. -/
structure Shape (id : BitVec 64) (s : TLSLockFreeQueue T) : Prop where
  head : s.words[s.dequeued.length]? = some s.head
  tail : s.words[s.moved]? = some s.tail
  lag : s.words.length ≤ s.moved + 2
  behind : s.dequeued.length ≤ s.moved + 1
  length : s.words.length = s.enqueued.length + 1
  next : ∀ i u v, s.dequeued.length ≤ i → s.words[i]? = some u → s.words[i + 1]? = some v →
    s.next (pointer u) = v
  last : ∀ a, IsLast s a → s.next a = id
  data : ∀ i u, s.dequeued.length ≤ i → s.words[i + 1]? = some u →
    s.enqueued[i]? = some (s.data (pointer u))
  dequeued : s.dequeued = s.enqueued.take s.dequeued.length
  used : ∀ u ∈ s.words, pointer u ∈ s.used
  high : ∀ a ∈ s.used, 64000 ≤ a.toNat

/-- No word that one operation goes by is made again by the other, and no node
that it expects to be the last one is the other's to link. -/
def Pc.Apart (q r : Pc T) : Prop :=
  (∀ u, q.word = some u → r.new ≠ some u) ∧ ∀ a, q.expects = some a → r.fresh ≠ some a

structure Inv (id : BitVec 64) (w : World T) : Prop where
  shape : Shape id w.shared
  /-- Every node is at one place. -/
  place : ∀ a, (live w.shared).count a + w.shared.pool.count a + w.shared.others.count a +
    w.total (Pc.owns a) = if a ∈ w.shared.used then 1 else 0
  /-- Where the tail is behind the head, somebody will see to it. -/
  fixing : w.shared.dequeued.length = w.shared.moved + 1 →
    ∃ q ∈ w.threads, q.fixes w.shared.moved
  /-- Only the last node has the number of the queue, and those to come. -/
  ids : ∀ a, w.shared.next a = id → IsLast w.shared a ∨ ∃ q ∈ w.threads, q.fresh = some a
  knows : ∀ q ∈ w.threads, q.Knows id w.shared
  apart : ∀ q ∈ w.threads, ∀ r ∈ w.threads, q.Apart r

/-! ## What a thread knows stays so -/

theorem getElem?_append_of_eq_some {α : Type} {l l' : List α} {i : ℕ} {x : α}
    (h : l[i]? = some x) : (l ++ l')[i]? = some x := by
  obtain ⟨hlt, -⟩ := List.getElem?_eq_some_iff.1 h
  rw [List.getElem?_append_left hlt, h]

/-- The history only grows, by the words `new`. -/
structure Grows (s s' : TLSLockFreeQueue T) (new : List (BitVec 64)) : Prop where
  words : s'.words = s.words ++ new
  enqueued : ∃ xs, s'.enqueued = s.enqueued ++ xs
  moved : s.moved ≤ s'.moved
  dequeued : s.dequeued.length ≤ s'.dequeued.length

section Knows

variable {id u v : BitVec 64} {s s' : TLSLockFreeQueue T} {new : List (BitVec 64)} {i : ℕ}

theorem Grows.word (hg : Grows s s' new) (h : s.words[i]? = some u) : s'.words[i]? = some u := by
  rw [hg.words]
  exact getElem?_append_of_eq_some h

/-- A place in the history has an old word, or a new one. -/
theorem Grows.of_word (hg : Grows s s' new) (h : s'.words[i]? = some u) :
    s.words[i]? = some u ∨ u ∈ new := by
  rw [hg.words] at h
  rcases Nat.lt_or_ge i s.words.length with hlt | hge
  · rw [List.getElem?_append_left hlt] at h
    exact .inl h
  · rw [List.getElem?_append_right hge] at h
    exact .inr (List.mem_of_getElem? h)

theorem Held.grows (h : Held s u i) (hg : Grows s s' new) (hnew : u ∉ new) : Held s' u i := by
  refine ⟨hg.word h.1, fun j hij hj => ?_⟩
  rcases hg.of_word hj with hold | hmem
  · exact h.2 j hij hold
  · exact hnew hmem

theorem TailAt.grows (h : TailAt s u i) (hg : Grows s s' new) (hnew : u ∉ new) : TailAt s' u i :=
  ⟨h.1.grows hg hnew, h.2.trans hg.moved⟩

theorem HeadAt.grows (h : HeadAt s u i) (hg : Grows s s' new) (hnew : u ∉ new) : HeadAt s' u i :=
  ⟨h.1.grows hg hnew, h.2.trans hg.dequeued⟩

theorem Pc.owns_of_fresh {q : Pc T} {a : Address} (h : q.fresh = some a) : q.owns a = 1 :=
  if_pos (.inl h)

theorem Pc.owns_of_taken {q : Pc T} {a : Address} (h : q.taken = some a) : q.owns a = 1 :=
  if_pos (.inr h)

/-- What a thread has is the node it is to link, -/
theorem Pc.owns_eq_of_fresh {q : Pc T} {a : Address} (hfresh : q.fresh = some a)
    (htaken : q.taken = none) (b : Address) : q.owns b = if a = b then 1 else 0 := by
  unfold Pc.owns
  simp [hfresh, htaken]

/-- or the one it has taken. -/
theorem Pc.owns_eq_of_taken {q : Pc T} {a : Address} (hfresh : q.fresh = none)
    (htaken : q.taken = some a) (b : Address) : q.owns b = if a = b then 1 else 0 := by
  unfold Pc.owns
  simp [hfresh, htaken]

theorem Pc.owns_eq_zero {q : Pc T} (hfresh : q.fresh = none) (htaken : q.taken = none)
    (b : Address) : q.owns b = 0 := by
  unfold Pc.owns
  simp [hfresh, htaken]

/-- **What a thread knows it still knows** when the history has grown, as long as
its nodes keep their fields, and no word that it goes by has come again. -/
theorem Pc.Knows.grows {q : Pc T} (h : q.Knows id s) (hg : Grows s s' new)
    (hmem : ∀ a, q.owns a = 1 → s'.data a = s.data a ∧ s'.next a = s.next a)
    (hword : ∀ u ∈ new, q.word ≠ some u)
    (hexpects : ∀ u ∈ new, q.expects ≠ some (pointer u)) : q.Knows id s' := by
  have hready : ∀ {a : Address} {x : T}, q.fresh = some a → Ready id s a x → Ready id s' a x := by
    intro a x hfresh hr
    obtain ⟨hd, hn⟩ := hmem a (Pc.owns_of_fresh hfresh)
    exact ⟨hd.trans hr.1, hn.trans hr.2⟩
  have hnew : ∀ {t : BitVec 64}, q.word = some t → t ∉ new := fun ht hmem => hword _ hmem ht
  have hmoved := hg.moved
  have hdequeued := hg.dequeued
  cases q with
  | setNext a x => exact (hmem a (Pc.owns_of_fresh rfl)).1.trans h
  | incTailCount a x => exact hready rfl h
  | loadTail new x => exact hready rfl h
  | loadNext new x t i | casNext new x t i =>
    obtain ⟨hr, ht, hlast⟩ := h
    refine ⟨hready rfl hr, ht.grows hg (hnew rfl), fun j u hij hj heq => ?_⟩
    rcases hg.of_word hj with hold | hu
    · exact hlast j u hij hold heq
    · exact hexpects u hu (congrArg some heq.symm)
  | casTail new t i => exact ⟨h.1.grows hg (hnew rfl), hg.word h.2⟩
  | helpNext new x t i =>
    obtain ⟨hr, ht, hi⟩ := h
    have hlen : s.words.length ≤ s'.words.length := by
      rw [hg.words, List.length_append]
      omega
    exact ⟨hready rfl hr, ht.grows hg (hnew rfl), by omega⟩
  | helpTail new x t i v =>
    obtain ⟨hr, ht, hi⟩ := h
    refine ⟨hready rfl hr, ht.grows hg (hnew rfl), ?_⟩
    exact hi.imp (fun hlt => by omega) hg.word
  | headNext h' i => exact HeadAt.grows h hg (hnew rfl)
  | getData h' i v =>
    exact ⟨h.1.grows hg (hnew rfl), h.2.imp (fun hlt => by omega) hg.word⟩
  | casHead h' i v x =>
    refine ⟨h.1.grows hg (hnew rfl), h.2.imp (fun hlt => by omega) ?_⟩
    rintro ⟨hv, hx⟩
    obtain ⟨xs, hxs⟩ := hg.enqueued
    rw [hxs]
    exact ⟨hg.word hv, getElem?_append_of_eq_some hx⟩
  | tailAfter h' i | fixNext h' i =>
    obtain ⟨hheld, hi, hnext⟩ := h
    rw [Pc.Knows, (hmem _ (Pc.owns_of_taken rfl)).2]
    exact ⟨hheld.grows hg (hnew rfl), by omega, hg.word hnext⟩
  | fixTail h' i v =>
    obtain ⟨hheld, hi, hv, hnext⟩ := h
    rw [Pc.Knows, (hmem _ (Pc.owns_of_taken rfl)).2]
    exact ⟨hheld.grows hg (hnew rfl), by omega, hg.word hv, hnext⟩
  | free h' i => exact lt_of_lt_of_le h hg.moved
  | _ => trivial

end Knows

/-! ## Where a node is -/

section Place

variable {id u v : BitVec 64} {w : World T} {a : Address} {q r : Pc T} {i j : ℕ}

/-- A node that is somewhere is in use, and only there. -/
theorem Inv.once (h : Inv id w) (hpos : 0 < (live w.shared).count a + w.shared.pool.count a +
      w.shared.others.count a + w.total (Pc.owns a)) :
    a ∈ w.shared.used ∧ (live w.shared).count a + w.shared.pool.count a +
      w.shared.others.count a + w.total (Pc.owns a) = 1 := by
  have hplace := h.place a
  by_cases hused : a ∈ w.shared.used
  · rw [if_pos hused] at hplace
    exact ⟨hused, hplace⟩
  · rw [if_neg hused] at hplace
    omega

/-- What a thread owns is in use, and nowhere else. -/
theorem Inv.of_owns (h : Inv id w) (hq : q ∈ w.threads) (hown : q.owns a = 1) :
    a ∈ w.shared.used ∧ a ∉ live w.shared ∧ a ∉ w.shared.pool ∧ a ∉ w.shared.others ∧
      w.total (Pc.owns a) = 1 := by
  have hle := Pool.le_total (Pc.owns a) hq
  obtain ⟨hused, hone⟩ := h.once (a := a) (by omega)
  exact ⟨hused, List.count_eq_zero.1 (by omega), List.count_eq_zero.1 (by omega),
    List.count_eq_zero.1 (by omega), by omega⟩

/-- Two threads own different nodes. -/
theorem Inv.owner (h : Inv id w) (hq : q ∈ w.threads) (hr : r ∈ w.threads)
    (hown : q.owns a = 1) (hown' : r.owns a = 1) : q = r := by
  obtain ⟨i, hi⟩ := List.mem_iff_getElem?.1 hq
  obtain ⟨j, hj⟩ := List.mem_iff_getElem?.1 hr
  obtain ⟨-, -, -, -, htotal⟩ := h.of_owns hq hown
  by_cases hij : i = j
  · subst hij
    exact Option.some.inj (hi.symm.trans hj)
  · have := Pool.add_le_sum_map (Pc.owns a) hij hi hj
    unfold Pool.total at htotal
    omega

/-- What another queue has is in use, and no thread's. -/
theorem Inv.of_others (h : Inv id w) (ha : a ∈ w.shared.others) :
    a ∈ w.shared.used ∧ a ∉ live w.shared ∧ ∀ q ∈ w.threads, q.owns a = 0 := by
  have hpos := List.count_pos_iff.2 ha
  obtain ⟨hused, hone⟩ := h.once (a := a) (by omega)
  exact ⟨hused, List.count_eq_zero.1 (by omega),
    fun q hq => Pool.eq_zero_of_total (by omega) hq⟩

/-- A node from the head on is in use, and nowhere else. -/
theorem Inv.of_live (h : Inv id w) (ha : a ∈ live w.shared) :
    a ∈ w.shared.used ∧ a ∉ w.shared.pool ∧ a ∉ w.shared.others ∧
      ∀ q ∈ w.threads, q.owns a = 0 := by
  have hpos := List.count_pos_iff.2 ha
  obtain ⟨hused, hone⟩ := h.once (a := a) (by omega)
  exact ⟨hused, List.count_eq_zero.1 (by omega), List.count_eq_zero.1 (by omega),
    fun q hq => Pool.eq_zero_of_total (by omega) hq⟩

theorem Inv.nodup (h : Inv id w) : (live w.shared).Nodup := by
  refine List.nodup_iff_count_le_one.2 fun a => ?_
  have hplace := h.place a
  split at hplace <;> omega

theorem getElem?_live {s : TLSLockFreeQueue T} (hi : s.dequeued.length ≤ i)
    (hu : s.words[i]? = some u) : (live s)[i - s.dequeued.length]? = some (pointer u) := by
  rw [live, List.getElem?_map, List.getElem?_drop, Nat.add_sub_cancel' hi, hu]
  rfl

theorem mem_live {s : TLSLockFreeQueue T} (hi : s.dequeued.length ≤ i)
    (hu : s.words[i]? = some u) : pointer u ∈ live s :=
  List.mem_of_getElem? (getElem?_live hi hu)

/-- From the head on every node comes once. -/
theorem Inv.pointer_ne (h : Inv id w) (hi : w.shared.dequeued.length ≤ i) (hij : i < j)
    (hu : w.shared.words[i]? = some u) (hv : w.shared.words[j]? = some v) :
    pointer v ≠ pointer u := by
  intro heq
  have hj := getElem?_live (by omega) hv
  obtain ⟨hlt, -⟩ := List.getElem?_eq_some_iff.1 hj
  have hne := List.nodup_iff_getElem?_ne_getElem?.1 h.nodup (i - w.shared.dequeued.length) _
    (by omega) hlt
  rw [hj, getElem?_live hi hu, heq] at hne
  exact hne rfl

/-- A thread sees to the tail only if it has its node. -/
theorem Pc.Knows.of_fixes (h : q.Knows id w.shared) (hfix : q.fixes i) :
    ∃ t, Held w.shared t i ∧ q.taken = some (pointer t) ∧
      w.shared.words[i + 1]? = some (w.shared.next (pointer t)) := by
  cases q with
  | tailAfter t j | fixNext t j =>
    obtain rfl : j = i := hfix
    exact ⟨t, h.1, rfl, h.2.2⟩
  | fixTail t j v =>
    obtain rfl : j = i := hfix
    obtain ⟨hheld, -, hv, hnext⟩ := h
    exact ⟨t, hheld, rfl, by rw [hnext, hv]⟩
  | _ => cases hfix

/-- **Where the tail is**: its node is one of those from the head on, or the
thread has it that is to see to the tail. -/
theorem Inv.tail_place (h : Inv id w) :
    w.shared.dequeued.length ≤ w.shared.moved ∧ pointer w.shared.tail ∈ live w.shared ∨
      ∃ q ∈ w.threads, q.taken = some (pointer w.shared.tail) ∧
        Held w.shared w.shared.tail w.shared.moved ∧
        w.shared.dequeued.length = w.shared.moved + 1 ∧
        w.shared.words[w.shared.moved + 1]? =
          some (w.shared.next (pointer w.shared.tail)) := by
  have hbehind := h.shape.behind
  rcases Nat.lt_or_ge w.shared.moved w.shared.dequeued.length with hlt | hge
  · have heq : w.shared.dequeued.length = w.shared.moved + 1 := by omega
    obtain ⟨q, hq, hfix⟩ := h.fixing heq
    obtain ⟨t, hheld, htaken, hnext⟩ := (h.knows q hq).of_fixes hfix
    obtain rfl : t = w.shared.tail := Option.some.inj (hheld.1.symm.trans h.shape.tail)
    exact .inr ⟨q, hq, htaken, hheld, heq, hnext⟩
  · exact .inl ⟨hge, mem_live hge h.shape.tail⟩

/-- No later word has the tail's node. -/
theorem Inv.after_tail (h : Inv id w) (hj : w.shared.moved < j)
    (hv : w.shared.words[j]? = some v) : pointer v ≠ pointer w.shared.tail := by
  rcases h.tail_place with ⟨hge, -⟩ | ⟨q, hq, htaken, -, heq, -⟩
  · exact h.pointer_ne hge hj h.shape.tail hv
  · intro hsame
    obtain ⟨-, hlive, -⟩ := h.of_owns hq (Pc.owns_of_taken htaken)
    exact hlive (hsame ▸ mem_live (by omega) hv)

theorem Inv.held_tail (h : Inv id w) : Held w.shared w.shared.tail w.shared.moved :=
  ⟨h.shape.tail, fun _ hj hsame => h.after_tail hj hsame rfl⟩

theorem Inv.held_head (h : Inv id w) : Held w.shared w.shared.head w.shared.dequeued.length :=
  ⟨h.shape.head, fun _ hj hsame => h.pointer_ne le_rfl hj h.shape.head hsame rfl⟩

theorem Pc.fresh_of_new (h : q.new = some u) : q.fresh = some (pointer u) := by
  cases q with
  | loadTail new | loadNext new | casNext new | helpNext new | helpTail new =>
    obtain rfl := Option.some.inj h
    rfl
  | _ => cases h

/-- The tail's node is nobody's to link, -/
theorem Inv.fresh_ne_tail (h : Inv id w) (hr : r ∈ w.threads) :
    r.fresh ≠ some (pointer w.shared.tail) := by
  intro hfresh
  have hown := Pc.owns_of_fresh hfresh
  rcases h.tail_place with ⟨-, hlive⟩ | ⟨q, hq, htaken, -⟩
  · exact absurd (h.of_live hlive).2.2.2 fun hzero => by simp [hzero r hr] at hown
  · obtain rfl := h.owner hq hr (Pc.owns_of_taken htaken) hown
    cases q with
    | tailAfter | fixNext | fixTail | free => cases hfresh
    | _ => cases htaken

/-- nor is the head's. -/
theorem Inv.fresh_ne_head (h : Inv id w) (hr : r ∈ w.threads) :
    r.fresh ≠ some (pointer w.shared.head) := by
  intro hfresh
  have hzero := (h.of_live (mem_live le_rfl h.shape.head)).2.2.2 r hr
  rw [Pc.owns_of_fresh hfresh] at hzero
  omega

end Place

/-! ## Steps -/

section Step

variable {id : BitVec 64} {w w' : World T} {e : ℕ × Event T} {pc pc' : Pc T}

/-- A node of a thread is not another's. -/
theorem Inv.not_owned (h : Inv id w) {a : Address} {j : ℕ} {q : Pc T}
    (hpc : w.threads[e.1]? = some pc) (hown : pc.owns a = 1) (hj : e.1 ≠ j)
    (hq : w.threads[j]? = some q) : q.owns a = 0 := by
  obtain ⟨-, -, -, -, htotal⟩ := h.of_owns (List.mem_of_getElem? hpc) hown
  exact Pool.eq_zero_of_other (by omega) hj hpc hq

/-- **A step keeps the invariant** where it keeps the shape of the queue, gives
every node a place, and leaves the nodes of the other threads alone. -/
theorem Inv.of_step (h : Inv id w) (new : List (BitVec 64)) (hpc : w.threads[e.1]? = some pc)
    (ht : w'.threads = w.threads.set e.1 pc') (hshape : Shape id w'.shared)
    (hgrows : Grows w.shared w'.shared new) (hnew : ∀ u ∈ new, pc.new = some u)
    (hmem : ∀ j q a, e.1 ≠ j → w.threads[j]? = some q → q.owns a = 1 →
      w'.shared.data a = w.shared.data a ∧ w'.shared.next a = w.shared.next a)
    (hplace : ∀ a, (live w'.shared).count a + w'.shared.pool.count a +
        w'.shared.others.count a + pc'.owns a + (if a ∈ w.shared.used then 1 else 0) =
      (live w.shared).count a + w.shared.pool.count a + w.shared.others.count a +
        pc.owns a + if a ∈ w'.shared.used then 1 else 0)
    (hfixing : w'.shared.dequeued.length = w'.shared.moved + 1 →
      ∃ q ∈ w'.threads, q.fixes w'.shared.moved)
    (hids : ∀ a, w'.shared.next a = id → IsLast w'.shared a ∨ pc'.fresh = some a ∨
      w.shared.next a = id ∧ ¬ IsLast w.shared a ∧ pc.fresh ≠ some a)
    (hknows : pc'.Knows id w'.shared)
    (hapart : ∀ r ∈ w.threads, pc'.Apart r ∧ r.Apart pc') (hself : pc'.Apart pc') :
    Inv id w' := by
  have hmempc := List.mem_of_getElem? hpc
  refine ⟨hshape, fun a => ?_, hfixing, fun a ha => ?_, ?_, ?_⟩
  · have hmove := Pool.total_step (Pc.owns a) hpc ht
    have hold := h.place a
    have hnewplace := hplace a
    omega
  · rcases hids a ha with hlast | hfresh | ⟨hold, hno, hpcf⟩
    · exact .inl hlast
    · exact .inr ⟨pc', Pool.mem_threads hpc ht, hfresh⟩
    · rcases h.ids a hold with hlast | hex
      · exact absurd hlast hno
      · rcases Pool.exists_threads hpc ht hex with hp | hex
        · exact absurd hp hpcf
        · exact .inr hex
  · refine Pool.forall_threads_of_others ht (fun j q hj hq => ?_) hknows
    have hmemq := List.mem_of_getElem? hq
    obtain ⟨hword, hexpects⟩ := h.apart q hmemq pc hmempc
    refine (h.knows q hmemq).grows hgrows (fun a hown => hmem j q a hj hq hown) ?_ ?_
    · intro u hu hw
      exact hword u hw (hnew u hu)
    · intro u hu hx
      exact hexpects _ hx (Pc.fresh_of_new (hnew u hu))
  · refine Pool.forall_threads ht (fun q hq => ?_) ?_
    · exact Pool.forall_threads ht (h.apart q hq) (hapart q hq).2
    · exact Pool.forall_threads ht (fun r hr => (hapart r hr).1) hself

theorem Pc.Apart.of_none {q : Pc T} (hword : q.word = none) (hexpects : q.expects = none)
    (r : Pc T) : q.Apart r := by
  refine ⟨fun u hu => ?_, fun a ha => ?_⟩
  · rw [hword] at hu
    cases hu
  · rw [hexpects] at ha
    cases ha

theorem Pc.Apart.to_fresh {q r : Pc T} (hnew : r.new = none)
    (h : ∀ a, q.expects = some a → r.fresh ≠ some a) : q.Apart r := by
  refine ⟨fun u _ hu => ?_, h⟩
  rw [hnew] at hu
  cases hu

/-- Nothing is to be made or linked. -/
theorem Pc.Apart.to_none {r : Pc T} (hnew : r.new = none) (hfresh : r.fresh = none) (q : Pc T) :
    q.Apart r := by
  refine .to_fresh hnew fun a _ ha => ?_
  rw [hfresh] at ha
  cases ha

theorem Pc.Apart.congr {q r r' : Pc T} (h : q.Apart r) (hnew : r'.new = r.new)
    (hfresh : r'.fresh = r.fresh) : q.Apart r' := by
  unfold Pc.Apart
  rw [hnew, hfresh]
  exact h

theorem Shape.dequeued_le {s : TLSLockFreeQueue T} (h : Shape id s) :
    s.dequeued.length ≤ s.enqueued.length := by
  have := congrArg List.length h.dequeued
  rw [List.length_take] at this
  omega

/-- Where the nodes from the head on and those of the other threads keep their
fields, and the history stays, -/
theorem Inv.quiet {z : BitVec 32} {c : BitVec 16} {d : Address → T} {n : Address → BitVec 64}
    {p o l : List Address} (h : Inv id w) (hpc : w.threads[e.1]? = some pc)
    (ht : w'.threads = w.threads.set e.1 pc')
    (hs : w'.shared = { w.shared with size := z, tailCount := c, data := d, next := n, pool := p,
                                      others := o, used := l })
    (hkeep : ∀ a, (a ∈ live w.shared ∨ ∃ j q, e.1 ≠ j ∧ w.threads[j]? = some q ∧ q.owns a = 1) →
      d a = w.shared.data a ∧ n a = w.shared.next a)
    (hused : ∀ a ∈ w.shared.used, a ∈ l) (hhigh : ∀ a ∈ l, 64000 ≤ a.toNat)
    (hplace : ∀ a, p.count a + o.count a + pc'.owns a + (if a ∈ w.shared.used then 1 else 0) =
      w.shared.pool.count a + w.shared.others.count a + pc.owns a + if a ∈ l then 1 else 0)
    (hfix : pc.fixes w.shared.moved → pc'.fixes w.shared.moved)
    (hids : ∀ a, n a = id → pc'.fresh = some a ∨ w.shared.next a = id ∧ pc.fresh ≠ some a)
    (hknows : pc'.Knows id w'.shared)
    (hapart : ∀ r ∈ w.threads, pc'.Apart r ∧ r.Apart pc') (hself : pc'.Apart pc') :
    Inv id w' := by
  obtain ⟨s', ts⟩ := w'
  subst hs
  have hshape := h.shape
  refine h.of_step [] hpc ht ?_ ?_ ?_ ?_ ?_ ?_ ?_ hknows hapart hself
  · refine ⟨hshape.head, hshape.tail, hshape.lag, hshape.behind, hshape.length, ?_, ?_, ?_,
      hshape.dequeued, fun u hu => hused _ (hshape.used u hu), hhigh⟩
    · intro i u v hi hu hv
      exact (hkeep _ (.inl (mem_live hi hu))).2.trans (hshape.next i u v hi hu hv)
    · rintro a ⟨u, hu, rfl⟩
      exact (hkeep _ (.inl (mem_live hshape.dequeued_le hu))).2.trans (hshape.last _ ⟨u, hu, rfl⟩)
    · intro i u hi hu
      refine (hshape.data i u hi hu).trans (congrArg some ?_)
      exact (hkeep _ (.inl (mem_live (Nat.le_succ_of_le hi) hu))).1.symm
  · exact ⟨(List.append_nil _).symm, ⟨[], (List.append_nil _).symm⟩, le_rfl, le_rfl⟩
  · rintro u ⟨⟩
  · intro j q a hj hq hown
    exact hkeep a (.inr ⟨j, q, hj, hq, hown⟩)
  · intro a
    have := hplace a
    change (live w.shared).count a + p.count a + o.count a + pc'.owns a +
        (if a ∈ w.shared.used then 1 else 0) =
      (live w.shared).count a + w.shared.pool.count a + w.shared.others.count a +
        pc.owns a + if a ∈ l then 1 else 0
    omega
  · intro heq
    rcases Pool.exists_threads hpc ht (h.fixing heq) with hp | hex
    · exact ⟨pc', Pool.mem_threads hpc ht, hfix hp⟩
    · exact hex
  · intro a ha
    by_cases hlast : IsLast w.shared a
    · exact .inl hlast
    · rcases hids a ha with hfresh | ⟨hold, hno⟩
      · exact .inr (.inl hfresh)
      · exact .inr (.inr ⟨hold, hlast, hno⟩)

/-- A thread that writes to no node keeps the number of the queue where it is. -/
theorem ids_of_fresh {n : Address → BitVec 64} (hfresh : pc'.fresh = pc.fresh) (a : Address)
    (ha : n a = id) : pc'.fresh = some a ∨ n a = id ∧ pc.fresh ≠ some a := by
  by_cases hpc : pc.fresh = some a
  · exact .inl (hfresh.trans hpc)
  · exact .inr ⟨ha, hpc⟩

theorem owns_congr (hfresh : pc'.fresh = pc.fresh) (htaken : pc'.taken = pc.taken)
    (a : Address) : pc'.owns a = pc.owns a := by
  unfold Pc.owns
  rw [hfresh, htaken]

/-- where no node is touched at all, -/
theorem Inv.untouched {z : BitVec 32} (h : Inv id w) (hpc : w.threads[e.1]? = some pc)
    (ht : w'.threads = w.threads.set e.1 pc') (hs : w'.shared = { w.shared with size := z })
    (hfresh : pc'.fresh = pc.fresh) (htaken : pc'.taken = pc.taken) (hnew : pc'.new = pc.new)
    (hfix : pc.fixes w.shared.moved → pc'.fixes w.shared.moved) (hknows : pc'.Knows id w'.shared)
    (hapart : ∀ r ∈ w.threads, pc'.Apart r) : Inv id w' := by
  have hmem := List.mem_of_getElem? hpc
  refine h.quiet hpc ht hs (fun _ _ => ⟨rfl, rfl⟩) (fun _ ha => ha) h.shape.high (fun a => ?_)
    hfix (ids_of_fresh hfresh) hknows (fun r hr => ⟨hapart r hr, ?_⟩) ?_
  · rw [owns_congr hfresh htaken]
  · exact (h.apart r hr pc hmem).congr hnew hfresh
  · exact (hapart pc hmem).congr hnew hfresh

/-- or one that is neither on the list nor another thread's. -/
theorem kept_of_ne {a : Address} {d : Address → T} {n : Address → BitVec 64}
    (hd : ∀ b ≠ a, d b = w.shared.data b) (hn : ∀ b ≠ a, n b = w.shared.next b)
    (hlive : a ∉ live w.shared)
    (hothers : ∀ j q, e.1 ≠ j → w.threads[j]? = some q → q.owns a = 0) (b : Address)
    (hb : b ∈ live w.shared ∨ ∃ j q, e.1 ≠ j ∧ w.threads[j]? = some q ∧ q.owns b = 1) :
    d b = w.shared.data b ∧ n b = w.shared.next b := by
  have hne : b ≠ a := by
    rintro rfl
    rcases hb with hb | ⟨j, q, hj, hq, hown⟩
    · exact hlive hb
    · have := hothers j q hj hq
      omega
  exact ⟨hd b hne, hn b hne⟩

/-- A thread writes to the node that it is to link. -/
theorem Inv.write_step {a : Address} {d : Address → T} {n : Address → BitVec 64} (h : Inv id w)
    (hpc : w.threads[e.1]? = some pc) (ht : w'.threads = w.threads.set e.1 pc')
    (hs : w'.shared = { w.shared with data := d, next := n })
    (hd : ∀ b ≠ a, d b = w.shared.data b) (hn : ∀ b ≠ a, n b = w.shared.next b)
    (hfresh : pc.fresh = some a) (hfresh' : pc'.fresh = some a) (htaken : pc.taken = none)
    (htaken' : pc'.taken = none) (hnew : pc'.new = none) (hword : pc'.word = none)
    (hexpects : pc'.expects = none) (hfix : ∀ i, ¬ pc.fixes i)
    (hknows : pc'.Knows id w'.shared) : Inv id w' := by
  have hmem := List.mem_of_getElem? hpc
  have hown := Pc.owns_of_fresh hfresh
  have hsame : pc'.fresh = pc.fresh := hfresh'.trans hfresh.symm
  refine h.quiet hpc ht hs (kept_of_ne hd hn (h.of_owns hmem hown).2.1 ?_) (fun _ ha => ha)
    h.shape.high (fun b => ?_) (fun hf => absurd hf (hfix _)) (fun b hb => ?_) hknows
    (fun r hr => ⟨.of_none hword hexpects r, .to_fresh hnew ?_⟩) (.of_none hword hexpects _)
  · intro j q hj hq
    exact h.not_owned hpc hown hj hq
  · rw [owns_congr hsame (htaken'.trans htaken.symm)]
  · by_cases hba : b = a
    · exact .inl (hba ▸ hfresh')
    · rw [hn b hba] at hb
      exact ids_of_fresh hsame b hb
  · intro b hb
    rw [hsame]
    exact (h.apart r hr pc hmem).2 b hb

/-- A node goes from one place to another, or is new: to the thread, -/
theorem Inv.alloc_step {a : Address} {x : T} {d : Address → T} {n : Address → BitVec 64}
    {p l : List Address} (h : Inv id w) (hpc : w.threads[e.1]? = some (.alloc x))
    (ht : w'.threads = w.threads.set e.1 (.setData a x))
    (hs : w'.shared = { w.shared with data := d, next := n, pool := p, used := l })
    (hkeep : ∀ b, (b ∈ live w.shared ∨ ∃ j q, e.1 ≠ j ∧ w.threads[j]? = some q ∧ q.owns b = 1) →
      d b = w.shared.data b ∧ n b = w.shared.next b)
    (hused : ∀ b ∈ w.shared.used, b ∈ l) (hhigh : ∀ b ∈ l, 64000 ≤ b.toNat)
    (hplace : ∀ b, p.count b + (if b = a then 1 else 0) + (if b ∈ w.shared.used then 1 else 0) =
      w.shared.pool.count b + if b ∈ l then 1 else 0)
    (hids : ∀ b, n b = id → w.shared.next b = id)
    (hunexpected : ∀ r ∈ w.threads, r.expects ≠ some a) : Inv id w' := by
  refine h.quiet hpc ht hs hkeep hused hhigh (fun b => ?_) (fun hf => False.elim hf)
    (fun b hb => .inr ⟨hids b hb, fun hno => by cases hno⟩) trivial
    (fun r hr => ⟨.of_none rfl rfl r, .to_fresh rfl fun b hb hfresh => ?_⟩) (.of_none rfl rfl _)
  · have hmove := hplace b
    rw [Pc.owns_eq_of_fresh rfl rfl, Pc.owns_eq_zero rfl rfl]
    simp only [eq_comm (a := a)]
    omega
  · obtain rfl := Option.some.inj hfresh
    exact hunexpected r hr hb

/-- or to another queue and back. -/
theorem Inv.other_step {d : Address → T} {n : Address → BitVec 64} {p o l : List Address}
    (h : Inv id w) (hpc : w.threads[e.1]? = some .idle)
    (ht : w'.threads = w.threads.set e.1 .idle)
    (hs : w'.shared = { w.shared with data := d, next := n, pool := p, others := o, used := l })
    (hkeep : ∀ b, (b ∈ live w.shared ∨ ∃ j q, e.1 ≠ j ∧ w.threads[j]? = some q ∧ q.owns b = 1) →
      d b = w.shared.data b ∧ n b = w.shared.next b)
    (hused : ∀ b ∈ w.shared.used, b ∈ l) (hhigh : ∀ b ∈ l, 64000 ≤ b.toNat)
    (hplace : ∀ b, p.count b + o.count b + (if b ∈ w.shared.used then 1 else 0) =
      w.shared.pool.count b + w.shared.others.count b + if b ∈ l then 1 else 0)
    (hids : ∀ b, n b = id → w.shared.next b = id) : Inv id w' := by
  refine h.quiet hpc ht hs hkeep hused hhigh (fun b => ?_) (fun hf => False.elim hf)
    (fun b hb => .inr ⟨hids b hb, fun hno => by cases hno⟩) trivial
    (fun r _ => ⟨.of_none rfl rfl r, .to_none rfl rfl r⟩) (.of_none rfl rfl _)
  have := hplace b
  omega

theorem Inv.free_step {t : BitVec 64} {i : ℕ} (h : Inv id w)
    (hpc : w.threads[e.1]? = some (.free t i)) (ht : w'.threads = w.threads.set e.1 .decSize)
    (hs : w'.shared = { w.shared with pool := pointer t :: w.shared.pool }) : Inv id w' := by
  refine h.quiet hpc ht hs (fun _ _ => ⟨rfl, rfl⟩) (fun _ ha => ha) h.shape.high (fun b => ?_)
    (fun hf => False.elim hf) (ids_of_fresh rfl) trivial
    (fun r _ => ⟨.of_none rfl rfl r, .to_none rfl rfl r⟩) (.of_none rfl rfl _)
  rw [Pc.owns_eq_zero rfl rfl, Pc.owns_eq_of_taken rfl rfl, List.count_cons]
  simp only [beq_iff_eq]
  omega

/-- The tail to be is made under a tag that no operation goes by. -/
theorem Inv.make_step {a : Address} {x : T} (h : Inv id w)
    (hpc : w.threads[e.1]? = some (.incTailCount a x))
    (ht : w'.threads = w.threads.set e.1 (.loadTail (newTail a (w.shared.tailCount + 1)) x))
    (hs : w'.shared = { w.shared with tailCount := w.shared.tailCount + 1 })
    (hunmade : ∀ r ∈ w.threads, r.word ≠ some (newTail a (w.shared.tailCount + 1))) :
    Inv id w' := by
  have hmem := List.mem_of_getElem? hpc
  have hfresh : (Pc.loadTail (newTail a (w.shared.tailCount + 1)) x).fresh =
      (Pc.incTailCount a x).fresh := congrArg some (pointer_newTail a _)
  refine h.quiet hpc ht hs (fun _ _ => ⟨rfl, rfl⟩) (fun _ ha => ha) h.shape.high (fun b => ?_)
    (fun hf => False.elim hf) (ids_of_fresh hfresh) ?_
    (fun r hr => ⟨.of_none rfl rfl r, ?_, ?_⟩) (.of_none rfl rfl _)
  · rw [owns_congr hfresh rfl]
  · rw [hs]
    have hready : Ready id w.shared a x := h.knows _ hmem
    change Ready id _ (pointer (newTail a _)) x
    rw [pointer_newTail]
    exact hready
  · rintro u hword hnew
    exact hunmade r hr (hword.trans hnew.symm)
  · rw [hfresh]
    exact (h.apart r hr _ hmem).2

/-- **The tail moves on**, to the word after it. -/
theorem Inv.move_step {v : BitVec 64} (h : Inv id w) (hpc : w.threads[e.1]? = some pc)
    (ht : w'.threads = w.threads.set e.1 pc')
    (hs : w'.shared = { w.shared with tail := v, moved := w.shared.moved + 1 })
    (hv : w.shared.words[w.shared.moved + 1]? = some v) (hfresh : pc'.fresh = pc.fresh)
    (htaken : pc'.taken = pc.taken) (hnew : pc'.new = pc.new) (hword : pc'.word = none)
    (hexpects : pc'.expects = none) (hknows : pc'.Knows id w'.shared) : Inv id w' := by
  obtain ⟨s', ts⟩ := w'
  subst hs
  have hmem := List.mem_of_getElem? hpc
  have hshape := h.shape
  have hbehind := hshape.behind
  refine h.of_step [] hpc ht ?_ ?_ (by rintro u ⟨⟩) (fun _ _ _ _ _ _ => ⟨rfl, rfl⟩)
    (fun a => ?_) (fun heq => ?_) (fun a ha => ?_) hknows (fun r hr => ⟨.of_none hword hexpects r,
      (h.apart r hr pc hmem).congr hnew hfresh⟩) (.of_none hword hexpects _)
  · exact ⟨hshape.head, hv, Nat.le_succ_of_le hshape.lag, Nat.le_succ_of_le hbehind,
      hshape.length, hshape.next, hshape.last, hshape.data, hshape.dequeued, hshape.used,
      hshape.high⟩
  · exact ⟨(List.append_nil _).symm, ⟨[], (List.append_nil _).symm⟩, Nat.le_succ _, le_rfl⟩
  · rw [owns_congr hfresh htaken]
    rfl
  · change w.shared.dequeued.length = w.shared.moved + 1 + 1 at heq
    omega
  · by_cases hlast : IsLast w.shared a
    · exact .inl hlast
    · rcases ids_of_fresh hfresh a ha with hf | ⟨hold, hno⟩
      · exact .inr (.inl hf)
      · exact .inr (.inr ⟨hold, hlast, hno⟩)

/-- **The tail is still the one that was read** only if it has not moved since. -/
theorem Inv.not_moved {t : BitVec 64} {i : ℕ} (h : Inv id w) (hheld : Held w.shared t i)
    (hle : i ≤ w.shared.moved) (htail : w.shared.tail = t) : i = w.shared.moved := by
  by_contra hne
  have hword := h.shape.tail
  rw [htail] at hword
  exact hheld.2 _ (by omega) hword

/-- So is the head. -/
theorem Inv.not_dequeued {t : BitVec 64} {i : ℕ} (h : Inv id w) (hat : HeadAt w.shared t i)
    (hhead : w.shared.head = t) : i = w.shared.dequeued.length := by
  obtain ⟨hheld, hle⟩ := hat
  by_contra hne
  have hword := h.shape.head
  rw [hhead] at hword
  exact hheld.2 _ (by omega) hword

/-- **A node of the number of the queue is the last one**, where nobody else is
to link it and no later word has it. -/
theorem Inv.is_last {new t : BitVec 64} {x : T} {i : ℕ} (h : Inv id w)
    (hmem : .casNext new x t i ∈ w.threads) (hnext : w.shared.next (pointer t) = id) :
    i = w.shared.enqueued.length ∧ w.shared.moved = w.shared.enqueued.length := by
  obtain ⟨-, ⟨hheld, hle⟩, hlast⟩ := h.knows _ hmem
  have hlength := h.shape.length
  obtain ⟨hlt, -⟩ := List.getElem?_eq_some_iff.1 h.shape.tail
  have hi : i = w.shared.enqueued.length := by
    rcases h.ids _ hnext with ⟨u, hu, hsame⟩ | ⟨r, hr, hfresh⟩
    · by_contra hne
      exact hlast _ u (by omega) hu hsame
    · exact absurd hfresh ((h.apart _ hmem r hr).2 _ rfl)
  omega

/-- A place in a list that one more is put to. -/
theorem getElem?_concat_cases {α : Type} {l : List α} {x y : α} {k : ℕ}
    (h : (l ++ [x])[k]? = some y) : k < l.length ∧ l[k]? = some y ∨ k = l.length ∧ y = x := by
  obtain ⟨hlt, -⟩ := List.getElem?_eq_some_iff.1 h
  rw [List.length_append, List.length_singleton] at hlt
  rcases Nat.lt_or_ge k l.length with hlt' | hge
  · rw [List.getElem?_append_left hlt'] at h
    exact .inl ⟨hlt', h⟩
  · obtain rfl : k = l.length := by omega
    rw [List.getElem?_concat_length] at h
    exact .inr ⟨rfl, (Option.some.inj h).symm⟩

/-- The queue with one more node behind the last. -/
theorem Shape.link {s : TLSLockFreeQueue T} {new t : BitVec 64} {x : T} (h : Shape id s)
    (hword : s.words[s.enqueued.length]? = some t) (hmoved : s.moved = s.enqueued.length)
    (hready : Ready id s (pointer new) x) (hused : pointer new ∈ s.used)
    (hne : pointer new ≠ pointer t)
    (hbefore : ∀ k u, s.dequeued.length ≤ k → k < s.enqueued.length → s.words[k]? = some u →
      pointer u ≠ pointer t) :
    Shape id { s with next := Function.update s.next (pointer t) new, words := s.words ++ [new],
                      enqueued := s.enqueued ++ [x] } := by
  have hlength := h.length
  refine ⟨getElem?_append_of_eq_some h.head, getElem?_append_of_eq_some h.tail, ?_, h.behind, ?_,
    ?_, ?_, ?_, ?_, ?_, h.high⟩
  · change (s.words ++ [new]).length ≤ s.moved + 2
    rw [List.length_append, List.length_singleton]
    omega
  · change (s.words ++ [new]).length = (s.enqueued ++ [x]).length + 1
    rw [List.length_append, List.length_append, List.length_singleton, List.length_singleton,
      hlength]
  · intro k u v hk hu hv
    change Function.update s.next (pointer t) new (pointer u) = v
    rcases getElem?_concat_cases hv with ⟨hlt, hv⟩ | ⟨heq, rfl⟩
    · rw [List.getElem?_append_left (by omega)] at hu
      rw [Function.update_of_ne (hbefore k u hk (by omega) hu)]
      exact h.next k u v hk hu hv
    · obtain rfl : k = s.enqueued.length := by omega
      rw [List.getElem?_append_left (by omega)] at hu
      obtain rfl := Option.some.inj (hu.symm.trans hword)
      exact Function.update_self ..
  · rintro a ⟨u, hu, rfl⟩
    change (s.words ++ [new])[(s.enqueued ++ [x]).length]? = some u at hu
    rw [List.length_append, List.length_singleton, ← hlength, List.getElem?_concat_length] at hu
    obtain rfl := Option.some.inj hu
    exact (Function.update_of_ne hne _ _).trans hready.2
  · intro k u hk hu
    change (s.enqueued ++ [x])[k]? = some (s.data (pointer u))
    rcases getElem?_concat_cases hu with ⟨-, hu⟩ | ⟨heq, rfl⟩
    · exact getElem?_append_of_eq_some (h.data k u hk hu)
    · obtain rfl : k = s.enqueued.length := by omega
      rw [List.getElem?_concat_length, hready.1]
  · change s.dequeued = (s.enqueued ++ [x]).take s.dequeued.length
    rw [List.take_append_of_le_length h.dequeued_le]
    exact h.dequeued
  · intro u hu
    rcases List.mem_append.1 hu with hold | hu
    · exact h.used u hold
    · rw [List.mem_singleton.1 hu]
      exact hused

/-- The queue without its first node. -/
theorem Shape.take {s : TLSLockFreeQueue T} {v : BitVec 64} {x : T} (h : Shape id s)
    (hv : s.words[s.dequeued.length + 1]? = some v)
    (hx : s.enqueued[s.dequeued.length]? = some x) :
    Shape id { s with head := v, dequeued := s.dequeued ++ [x] } := by
  have hlag := h.lag
  obtain ⟨hlt, -⟩ := List.getElem?_eq_some_iff.1 hv
  have hlen : (s.dequeued ++ [x]).length = s.dequeued.length + 1 := by
    rw [List.length_append, List.length_singleton]
  refine ⟨?_, h.tail, hlag, ?_, h.length, fun k u u' hk => ?_, h.last, fun k u hk => ?_, ?_, h.used,
    h.high⟩
  · change s.words[(s.dequeued ++ [x]).length]? = some v
    rw [hlen, hv]
  · change (s.dequeued ++ [x]).length ≤ s.moved + 1
    omega
  · change (s.dequeued ++ [x]).length ≤ k at hk
    exact h.next k u u' (by omega)
  · change (s.dequeued ++ [x]).length ≤ k at hk
    exact h.data k u (by omega)
  · change s.dequeued ++ [x] = s.enqueued.take (s.dequeued ++ [x]).length
    rw [hlen, List.take_add_one, hx, ← h.dequeued]
    rfl

/-- **A node is linked.** -/
theorem Inv.link_step {new t : BitVec 64} {x : T} {i : ℕ} (h : Inv id w) (hid : id.toNat < 64000)
    (hpc : w.threads[e.1]? = some (.casNext new x t i))
    (ht : w'.threads = w.threads.set e.1 (.casTail new t i))
    (hs : w'.shared = { w.shared with next := Function.update w.shared.next (pointer t) new,
                                      words := w.shared.words ++ [new],
                                      enqueued := w.shared.enqueued ++ [x] })
    (hnext : w.shared.next (pointer t) = id) : Inv id w' := by
  have hmem := List.mem_of_getElem? hpc
  have hshape := h.shape
  have hlength := hshape.length
  have hdequeued := hshape.dequeued_le
  obtain ⟨hi, hmoved⟩ := h.is_last hmem hnext
  obtain ⟨hready, hat, -⟩ := h.knows _ hmem
  obtain ⟨hused, hnotlive, -⟩ := h.of_owns hmem (a := pointer new) (Pc.owns_of_fresh rfl)
  have hword : w.shared.words[w.shared.enqueued.length]? = some t := hi ▸ hat.1.1
  have hlive := mem_live hdequeued hword
  have hne : pointer new ≠ pointer t := fun heq => hnotlive (heq ▸ hlive)
  have hlast : ∀ a, IsLast w.shared a → a = pointer t := by
    rintro a ⟨u, hu, rfl⟩
    rw [Option.some.inj (hu.symm.trans hword)]
  have hend : (w.shared.words ++ [new])[w.shared.enqueued.length + 1]? = some new := by
    rw [← hlength]
    exact List.getElem?_concat_length
  have hnewshape := hshape.link hword hmoved hready hused hne fun k u hk hlt hu =>
    (h.pointer_ne hk hlt hu hword).symm
  obtain ⟨s', ts⟩ := w'
  subst hs
  have hgrows : Grows w.shared
      { w.shared with next := Function.update w.shared.next (pointer t) new,
                      words := w.shared.words ++ [new],
                      enqueued := w.shared.enqueued ++ [x] } [new] :=
    ⟨rfl, ⟨[x], rfl⟩, le_rfl, le_rfl⟩
  refine h.of_step [new] hpc ht hnewshape hgrows ?_ ?_ (fun a => ?_) ?_ (fun a ha => ?_) ?_ ?_ ?_
  · intro u hu
    rw [List.mem_singleton.1 hu]
    rfl
  · intro j q a _ hq hown
    have hzero := (h.of_live hlive).2.2.2 q (List.mem_of_getElem? hq)
    refine ⟨rfl, Function.update_of_ne ?_ _ _⟩
    rintro rfl
    omega
  · have hcount : ((w.shared.words ++ [new]).drop w.shared.dequeued.length).map pointer =
        live w.shared ++ [pointer new] := by
      rw [List.drop_append_of_le_length (by omega), List.map_append]
      rfl
    rw [Pc.owns_eq_zero rfl rfl, Pc.owns_eq_of_fresh rfl rfl]
    change (List.map pointer _).count a + w.shared.pool.count a + w.shared.others.count a + 0 +
        (if a ∈ w.shared.used then 1 else 0) =
      (live w.shared).count a + w.shared.pool.count a + w.shared.others.count a +
        (if pointer new = a then 1 else 0) + if a ∈ w.shared.used then 1 else 0
    rw [hcount, List.count_append, List.count_singleton]
    simp only [beq_iff_eq]
    omega
  · intro heq
    change w.shared.dequeued.length = w.shared.moved + 1 at heq
    omega
  · change Function.update w.shared.next (pointer t) new a = id at ha
    by_cases hat' : a = pointer t
    · -- what was linked is a node, and no number of a queue
      rw [hat', Function.update_self] at ha
      have hhigh := hshape.high _ hused
      rw [ha, pointer_toNat] at hhigh
      omega
    · rw [Function.update_of_ne hat'] at ha
      by_cases hnew' : pointer new = a
      · refine .inl ⟨new, ?_, hnew'⟩
        change (w.shared.words ++ [new])[(w.shared.enqueued ++ [x]).length]? = some new
        rw [List.length_append, List.length_singleton]
        exact hend
      · exact .inr (.inr ⟨ha, fun hl => hat' (hlast a hl), fun hf => hnew' (Option.some.inj hf)⟩)
  · refine ⟨TailAt.grows hat hgrows fun hmem' => ?_, hi ▸ hend⟩
    exact (h.apart _ hmem _ hmem).1 _ rfl (congrArg some (List.mem_singleton.1 hmem').symm)
  · intro r hr
    refine ⟨⟨(h.apart _ hmem r hr).1, fun a ha => by cases ha⟩, .to_none rfl rfl r⟩
  · exact .to_none rfl rfl _

/-- **A node is taken.** -/
theorem Inv.take_step {t v : BitVec 64} {x : T} {i : ℕ} (h : Inv id w)
    (hpc : w.threads[e.1]? = some (.casHead t i v x))
    (ht : w'.threads = w.threads.set e.1 (.tailAfter t i))
    (hs : w'.shared = { w.shared with head := v, dequeued := w.shared.dequeued ++ [x] })
    (hhead : w.shared.head = t) : Inv id w' := by
  have hmem := List.mem_of_getElem? hpc
  have hshape := h.shape
  have hlag := hshape.lag
  obtain ⟨hat, hor⟩ := h.knows _ hmem
  have hi := h.not_dequeued hat hhead
  obtain ⟨hv, hx⟩ := hor.resolve_left (by omega)
  subst hi
  obtain ⟨hlt, -⟩ := List.getElem?_eq_some_iff.1 hv
  have hnext := hshape.next _ _ _ le_rfl hat.1.1 hv
  have hnewshape := hshape.take hv hx
  obtain ⟨s', ts⟩ := w'
  subst hs
  have hlen : (w.shared.dequeued ++ [x]).length = w.shared.dequeued.length + 1 := by
    rw [List.length_append, List.length_singleton]
  refine h.of_step [] hpc ht hnewshape ?_ (by rintro u ⟨⟩) (fun _ _ _ _ _ _ => ⟨rfl, rfl⟩)
    (fun a => ?_) (fun heq => ?_) (fun a ha => ?_) ?_ (fun r hr => ⟨?_, .to_none rfl rfl r⟩)
    (.to_none rfl rfl _)
  · refine ⟨(List.append_nil _).symm, ⟨[], (List.append_nil _).symm⟩, le_rfl, ?_⟩
    change w.shared.dequeued.length ≤ (w.shared.dequeued ++ [x]).length
    omega
  · have hlive : live w.shared = pointer t ::
        (w.shared.words.drop (w.shared.dequeued ++ [x]).length).map pointer := by
      have hget : w.shared.words[w.shared.dequeued.length] = t :=
        Option.some.inj ((List.getElem?_eq_getElem (by omega)).symm.trans hat.1.1)
      unfold live
      rw [List.drop_eq_getElem_cons (by omega), hget, List.map_cons, hlen]
    rw [Pc.owns_eq_of_taken rfl rfl, Pc.owns_eq_zero rfl rfl, hlive, List.count_cons]
    simp only [beq_iff_eq]
    change ((w.shared.words.drop (w.shared.dequeued ++ [x]).length).map pointer).count a +
        w.shared.pool.count a + w.shared.others.count a + (if pointer t = a then 1 else 0) +
        (if a ∈ w.shared.used then 1 else 0) = _
    omega
  · refine ⟨_, Pool.mem_threads hpc ht, ?_⟩
    change (w.shared.dequeued ++ [x]).length = w.shared.moved + 1 at heq
    change w.shared.dequeued.length = w.shared.moved
    omega
  · by_cases hlast : IsLast w.shared a
    · exact .inl hlast
    · exact .inr (.inr ⟨ha, hlast, fun hno => by cases hno⟩)
  · refine ⟨hat.1, ?_, ?_⟩
    · change w.shared.dequeued.length < (w.shared.dequeued ++ [x]).length
      omega
    · change w.shared.words[w.shared.dequeued.length + 1]? = some (w.shared.next (pointer t))
      rw [hnext, hv]
  · exact ⟨(h.apart _ hmem r hr).1, fun a ha => by cases ha⟩

/-! ## The accesses, told apart by what they find -/

/-- The accesses that change nothing but the thread. -/
inductive Reads (id : BitVec 64) (s : TLSLockFreeQueue T) : Pc T → Pc T → Prop
  | enqueue {x : T} : Reads id s .idle (.alloc x)
  | dequeue : Reads id s .idle .loadSize
  | loadTail {new : BitVec 64} {x : T} :
    Reads id s (.loadTail new x) (.loadNext new x s.tail s.moved)
  | last {new t : BitVec 64} {x : T} {i : ℕ} :
    Reads id s (.loadNext new x t i) (.casNext new x t i)
  | notLast {new t : BitVec 64} {x : T} {i : ℕ} : s.next (pointer t) ≠ id →
    Reads id s (.loadNext new x t i) (.helpNext new x t i)
  | notLinked {new t : BitVec 64} {x : T} {i : ℕ} :
    Reads id s (.casNext new x t i) (.loadTail new x)
  | notMoved {new t : BitVec 64} {i : ℕ} : Reads id s (.casTail new t i) .incSize
  | helpNext {new t : BitVec 64} {x : T} {i : ℕ} :
    Reads id s (.helpNext new x t i) (.helpTail new x t i (s.next (pointer t)))
  | notHelped {new t v : BitVec 64} {x : T} {i : ℕ} :
    Reads id s (.helpTail new x t i v) (.loadTail new x)
  | empty : Reads id s .loadSize .idle
  | loadSize : Reads id s .loadSize .loadHead
  | loadHead : Reads id s .loadHead (.headNext s.head s.dequeued.length)
  | noNext {t : BitVec 64} {i : ℕ} : Reads id s (.headNext t i) .idle
  | headNext {t : BitVec 64} {i : ℕ} : 64000 ≤ (pointer (s.next (pointer t))).toNat →
    Reads id s (.headNext t i) (.getData t i (s.next (pointer t)))
  | getData {t v : BitVec 64} {i : ℕ} :
    Reads id s (.getData t i v) (.casHead t i v (s.data (pointer v)))
  | notTaken {t v : BitVec 64} {x : T} {i : ℕ} : Reads id s (.casHead t i v x) .loadHead
  | tailBehind {t : BitVec 64} {i : ℕ} : Reads id s (.tailAfter t i) (.fixNext t i)
  | tailAhead {t : BitVec 64} {i : ℕ} : s.tail ≠ t → Reads id s (.tailAfter t i) (.free t i)
  | fixNext {t : BitVec 64} {i : ℕ} :
    Reads id s (.fixNext t i) (.fixTail t i (s.next (pointer t)))
  | notFixed {t v : BitVec 64} {i : ℕ} : s.tail ≠ t → Reads id s (.fixTail t i v) (.free t i)

/-- What comes next of a tail that is not the last word. -/
theorem Inv.next_of_tail {t : BitVec 64} {i : ℕ} (h : Inv id w) (hat : TailAt w.shared t i)
    (hi : i < w.shared.moved ∨ i + 1 < w.shared.words.length) :
    i < w.shared.moved ∨ w.shared.words[i + 1]? = some (w.shared.next (pointer t)) := by
  obtain ⟨hheld, hle⟩ := hat
  rcases Nat.lt_or_ge i w.shared.moved with hlt | hge
  · exact .inl hlt
  · obtain rfl : i = w.shared.moved := by omega
    obtain rfl : t = w.shared.tail := Option.some.inj (hheld.1.symm.trans h.shape.tail)
    refine .inr ?_
    rcases h.tail_place with ⟨hdequeued, -⟩ | ⟨q, -, -, -, -, hnext⟩
    · have hget := List.getElem?_eq_getElem (hi.resolve_left (by omega))
      rw [h.shape.next _ _ _ hdequeued hheld.1 hget, hget]
    · exact hnext

/-- The tail has gone by, unless it is there. -/
theorem Inv.gone_by {t : BitVec 64} {i : ℕ} (h : Inv id w) (hheld : Held w.shared t i)
    (hi : i < w.shared.dequeued.length) (htail : w.shared.tail ≠ t) : i < w.shared.moved := by
  have hbehind := h.shape.behind
  by_contra hno
  obtain rfl : i = w.shared.moved := by omega
  exact htail (Option.some.inj (h.shape.tail.symm.trans hheld.1))

/-- **What a thread finds is so**: the accesses that only read keep the
invariant. -/
theorem Inv.reads_step (h : Inv id w) (hid : id.toNat < 64000)
    (hpc : w.threads[e.1]? = some pc) (ht : w'.threads = w.threads.set e.1 pc')
    (hs : w'.shared = w.shared) (hreads : Reads id w.shared pc pc') : Inv id w' := by
  have hmem := List.mem_of_getElem? hpc
  have hknows := h.knows _ hmem
  have hsame := h.apart _ hmem
  have hnone : ∀ {q : Pc T}, q.word = none → q.expects = none →
      ∀ r ∈ w.threads, q.Apart r := fun hw hx r _ => .of_none hw hx r
  have hkeep : ∀ {q : Pc T}, q.word = pc.word → q.expects = none →
      ∀ r ∈ w.threads, q.Apart r := by
    intro q hw hx r hr
    refine ⟨fun u hu => (hsame r hr).1 u (hw ▸ hu), fun a ha => ?_⟩
    rw [hx] at ha
    cases ha
  -- most accesses leave a thread what it has, and know what it knew
  have hstep : pc'.fresh = pc.fresh → pc'.taken = pc.taken → pc'.new = pc.new →
      (pc.fixes w.shared.moved → pc'.fixes w.shared.moved) → pc'.Knows id w.shared →
      (∀ r ∈ w.threads, pc'.Apart r) → Inv id w' := by
    intro hfresh htaken hnew hfix hknows' hapart
    exact h.untouched hpc ht hs hfresh htaken hnew hfix (hs ▸ hknows') hapart
  cases hreads with
  | enqueue | dequeue | empty | loadSize =>
    exact hstep rfl rfl rfl (fun hf => hf) trivial (hnone rfl rfl)
  | notMoved | noNext | notTaken =>
    exact hstep rfl rfl rfl (fun hf => hf) trivial (hnone rfl rfl)
  | loadTail =>
    refine hstep rfl rfl rfl (fun hf => hf)
      ⟨hknows, ⟨h.held_tail, le_rfl⟩, fun j u hj hu => h.after_tail hj hu⟩ fun r hr => ?_
    have hfresh := h.fresh_ne_tail hr
    refine ⟨fun u hu hnew => ?_, fun a ha => ?_⟩
    · obtain rfl := Option.some.inj hu
      exact hfresh (Pc.fresh_of_new hnew)
    · obtain rfl := Option.some.inj ha
      exact hfresh
  | last => exact hstep rfl rfl rfl (fun hf => hf) hknows hsame
  | @notLast new t x i hno =>
    obtain ⟨hready, hat, -⟩ := hknows
    refine hstep rfl rfl rfl (fun hf => hf) ⟨hready, hat, ?_⟩ (hkeep rfl rfl)
    -- the last node has the number of the queue
    by_contra hlast
    have hlength := h.shape.length
    have hle := hat.2
    obtain ⟨hlt, -⟩ := List.getElem?_eq_some_iff.1 hat.1.1
    obtain rfl : i = w.shared.enqueued.length := by omega
    exact hno (h.shape.last _ ⟨t, hat.1.1, rfl⟩)
  | notLinked => exact hstep rfl rfl rfl (fun hf => hf) hknows.1 (hnone rfl rfl)
  | helpNext =>
    obtain ⟨hready, hat, hi⟩ := hknows
    exact hstep rfl rfl rfl (fun hf => hf) ⟨hready, hat, h.next_of_tail hat hi⟩ (hkeep rfl rfl)
  | notHelped => exact hstep rfl rfl rfl (fun hf => hf) hknows.1 (hnone rfl rfl)
  | loadHead =>
    refine hstep rfl rfl rfl (fun hf => hf) ⟨h.held_head, le_rfl⟩ fun r hr => ?_
    refine ⟨fun u hu hnew => ?_, fun a ha => by cases ha⟩
    obtain rfl := Option.some.inj hu
    exact h.fresh_ne_head hr (Pc.fresh_of_new hnew)
  | @headNext t i hhigh =>
    refine hstep rfl rfl rfl (fun hf => hf) ⟨hknows, ?_⟩ (hkeep rfl rfl)
    rcases Nat.lt_or_ge i w.shared.dequeued.length with hlt | hge
    · exact .inl hlt
    · -- the node has a next one, for it has not the number of the queue
      obtain ⟨hheld, hle⟩ := hknows
      have hlength := h.shape.length
      obtain ⟨hlt, -⟩ := List.getElem?_eq_some_iff.1 hheld.1
      have hmore : i + 1 < w.shared.words.length := by
        by_contra hno
        obtain rfl : i = w.shared.enqueued.length := by omega
        rw [h.shape.last _ ⟨t, hheld.1, rfl⟩, pointer_toNat] at hhigh
        omega
      have hget := List.getElem?_eq_getElem hmore
      rw [h.shape.next _ _ _ hge hheld.1 hget]
      exact .inr hget
  | @getData t v i =>
    refine hstep rfl rfl rfl (fun hf => hf) ⟨hknows.1, ?_⟩ (hkeep rfl rfl)
    rcases Nat.lt_or_ge i w.shared.dequeued.length with hlt | hge
    · exact .inl hlt
    · have hv := hknows.2.resolve_left (by omega)
      exact .inr ⟨hv, h.shape.data i v hge hv⟩
  | tailBehind => exact hstep rfl rfl rfl (fun hf => hf) hknows (hkeep rfl rfl)
  | tailAhead hne =>
    have hgone := h.gone_by hknows.1 hknows.2.1 hne
    exact hstep rfl rfl rfl (fun hf => absurd hf hgone.ne) hgone (hnone rfl rfl)
  | fixNext =>
    exact hstep rfl rfl rfl (fun hf => hf) ⟨hknows.1, hknows.2.1, hknows.2.2, rfl⟩
      (hkeep rfl rfl)
  | notFixed hne =>
    have hgone := h.gone_by hknows.1 hknows.2.1 hne
    exact hstep rfl rfl rfl (fun hf => absurd hf hgone.ne) hgone (hnone rfl rfl)

theorem Inv.expects_used {r : Pc T} {a : Address} (h : Inv id w) (hr : r ∈ w.threads)
    (ha : r.expects = some a) : a ∈ w.shared.used := by
  have hknows := h.knows r hr
  cases r with
  | loadNext new x t i | casNext new x t i =>
    obtain rfl := Option.some.inj ha
    exact h.shape.used t (List.mem_of_getElem? hknows.2.1.1.1)
  | _ => cases ha

variable [Inhabited T]

/-- A new node is nobody's. -/
theorem Inv.kept_of_create {a : Address} (h : Inv id w) (hunused : a ∉ w.shared.used)
    (b : Address)
    (hb : b ∈ live w.shared ∨ ∃ j q, e.1 ≠ j ∧ w.threads[j]? = some q ∧ q.owns b = 1) :
    (w.shared.construct a).data b = w.shared.data b ∧
      (w.shared.construct a).next b = w.shared.next b := by
  refine kept_of_ne (fun _ hne => Function.update_of_ne hne _ _)
    (fun _ hne => Function.update_of_ne hne _ _) (fun hlive => ?_) (fun j q _ hq => ?_) b hb
  · exact hunused (h.of_live hlive).1
  · by_contra hne
    have hle : q.owns a ≤ 1 := by
      unfold Pc.owns
      split <;> omega
    exact hunused (h.of_owns (List.mem_of_getElem? hq) (by omega)).1

theorem count_used_create {l : List Address} {a : Address} (hunused : a ∉ l) (b : Address) :
    (if b ∈ a :: l then 1 else 0) = (if b ∈ l then 1 else 0) + if b = a then 1 else 0 := by
  by_cases hba : b = a
  · rw [hba, if_pos List.mem_cons_self, if_neg hunused, if_pos rfl]
  · simp [hba]

theorem high_create {l : List Address} {a : Address} (hl : ∀ b ∈ l, 64000 ≤ b.toNat)
    (ha : ¬ a.toNat < 64000) : ∀ b ∈ a :: l, 64000 ≤ b.toNat := by
  intro b hb
  rcases List.mem_cons.1 hb with rfl | hb
  · omega
  · exact hl b hb

theorem ids_create {s : TLSLockFreeQueue T} {a : Address} (hzero : id ≠ 0) (b : Address)
    (hb : (s.construct a).next b = id) : s.next b = id := by
  by_cases hba : b = a
  · subst hba
    rw [construct_next, Function.update_self] at hb
    exact absurd hb.symm hzero
  · rw [construct_next, Function.update_of_ne hba] at hb
    exact hb

theorem count_erase_add {l : List Address} {a : Address} (ha : a ∈ l) (b : Address) :
    (l.erase a).count b + (if b = a then 1 else 0) = l.count b := by
  by_cases hba : b = a
  · have hpos := List.count_pos_iff.2 ha
    rw [hba, List.count_erase_self, if_pos rfl]
    omega
  · rw [List.count_erase_of_ne hba, if_neg hba, Nat.add_zero]

theorem count_cons_add (l : List Address) (a b : Address) :
    (a :: l).count b = l.count b + if b = a then 1 else 0 := by
  rw [List.count_cons]
  simp only [beq_iff_eq, eq_comm (a := a)]

/-- **What other queues do** is no matter to this one. -/
theorem Inv.of_other {ev : Event T} (h : Inv id w) (hzero : id ≠ 0)
    (hpc : w.threads[e.1]? = some .idle) (ht : w'.threads = w.threads.set e.1 .idle)
    (hother : other id w.shared ev = some w'.shared) : Inv id w' := by
  unfold other at hother
  split at hother
  · split at hother
    · next hpool =>
      have hpool := List.contains_iff_mem.1 hpool
      have hs := (Option.some.inj hother).symm
      refine h.other_step hpc ht hs (fun _ _ => ⟨rfl, rfl⟩) (fun _ hb => hb) h.shape.high
        (fun b => ?_) (fun _ hb => hb)
      have := count_erase_add hpool b
      rw [count_cons_add]
      omega
    · cases hother
  · split at hother
    · cases hother
    · next hno =>
      obtain ⟨hnot, hhigh⟩ := not_or.1 hno
      have hunused := mt List.contains_iff_mem.2 hnot
      have hs := (Option.some.inj hother).symm
      refine h.other_step hpc ht hs (h.kept_of_create hunused)
        (fun _ hb => List.mem_cons_of_mem _ hb) (high_create h.shape.high hhigh) (fun b => ?_)
        (ids_create hzero)
      rw [count_cons_add, construct_used, construct_pool, count_used_create hunused]
      omega
  · split at hother
    · next hwrite =>
      obtain ⟨hcontains, hne⟩ := hwrite
      have hmem := List.contains_iff_mem.1 hcontains
      have hs := (Option.some.inj hother).symm
      obtain ⟨-, hlive, hothers⟩ := h.of_others hmem
      refine h.other_step hpc ht hs (kept_of_ne (fun _ hb => Function.update_of_ne hb _ _)
        (fun _ hb => Function.update_of_ne hb _ _) hlive
        fun j q _ hq => hothers q (List.mem_of_getElem? hq)) (fun _ hb => hb) h.shape.high
        (fun _ => rfl) (fun b hb => ?_)
      rw [Function.update_apply] at hb
      split at hb
      · exact absurd hb hne
      · exact hb
    · cases hother
  · split at hother
    · next hcontains =>
      have hmem := List.contains_iff_mem.1 hcontains
      have hs := (Option.some.inj hother).symm
      refine h.other_step hpc ht hs (fun _ _ => ⟨rfl, rfl⟩) (fun _ hb => hb) h.shape.high
        (fun b => ?_) (fun _ hb => hb)
      have := count_erase_add hmem b
      rw [count_cons_add]
      omega
    · cases hother
  · cases hother

/-- The accesses of a thread, with what they change. -/
inductive Action (id : BitVec 64) (s : TLSLockFreeQueue T) :
    Pc T → Event T → TLSLockFreeQueue T → Pc T → Prop
  | reads {q r : Pc T} {ev : Event T} : Reads id s q r → Action id s q ev s r
  | other {ev : Event T} {s' : TLSLockFreeQueue T} : other id s ev = some s' →
    Action id s .idle ev s' .idle
  | reuse {a : Address} {x : T} : a ∈ s.pool →
    Action id s (.alloc x) (.reuse a) { s with pool := s.pool.erase a } (.setData a x)
  | create {a : Address} {x : T} : a ∉ s.used → ¬ a.toNat < 64000 →
    Action id s (.alloc x) (.create a) (s.construct a) (.setData a x)
  | setData {a : Address} {x : T} :
    Action id s (.setData a x) .go { s with data := Function.update s.data a x } (.setNext a x)
  | setNext {a : Address} {x : T} :
    Action id s (.setNext a x) .go { s with next := Function.update s.next a id }
      (.incTailCount a x)
  | incTailCount {a : Address} {x : T} :
    Action id s (.incTailCount a x) .go { s with tailCount := s.tailCount + 1 }
      (.loadTail (newTail a (s.tailCount + 1)) x)
  | linked {new t : BitVec 64} {x : T} {i : ℕ} : s.next (pointer t) = id →
    Action id s (.casNext new x t i) .go
      { s with next := Function.update s.next (pointer t) new, words := s.words ++ [new],
               enqueued := s.enqueued ++ [x] } (.casTail new t i)
  | moved {new t : BitVec 64} {i : ℕ} : s.tail = t →
    Action id s (.casTail new t i) .go { s with tail := new, moved := s.moved + 1 } .incSize
  | helped {new t v : BitVec 64} {x : T} {i : ℕ} : s.tail = t →
    Action id s (.helpTail new x t i v) .go { s with tail := v, moved := s.moved + 1 }
      (.loadTail new x)
  | incSize : Action id s .incSize .go { s with size := s.size + 1 } .idle
  | taken {t v : BitVec 64} {x : T} {i : ℕ} : s.head = t →
    Action id s (.casHead t i v x) .go { s with head := v, dequeued := s.dequeued ++ [x] }
      (.tailAfter t i)
  | fixed {t v : BitVec 64} {i : ℕ} : s.tail = t →
    Action id s (.fixTail t i v) .go { s with tail := v, moved := s.moved + 1 } (.free t i)
  | free {t : BitVec 64} {i : ℕ} :
    Action id s (.free t i) .go { s with pool := pointer t :: s.pool } .decSize
  | decSize : Action id s .decSize .go { s with size := s.size - 1 } .idle

/-- **Every access is one of these.** -/
theorem action_of_access {s s' : TLSLockFreeQueue T} {ev : Event T}
    (h : access id s pc ev = some (s', pc')) : Action id s pc ev s' pc' := by
  unfold access at h
  split at h
  case h_3 =>
    obtain ⟨t, ht, heq⟩ := Option.map_eq_some_iff.1 h
    obtain ⟨rfl, rfl⟩ := Prod.mk.inj heq
    exact .other ht
  case h_4 =>
    split at h
    · next hpool =>
      obtain ⟨rfl, rfl⟩ := Prod.mk.inj (Option.some.inj h)
      exact .reuse (List.contains_iff_mem.1 hpool)
    · cases h
  case h_5 =>
    split at h
    · cases h
    · next hno =>
      obtain ⟨rfl, rfl⟩ := Prod.mk.inj (Option.some.inj h)
      obtain ⟨hnot, hhigh⟩ := not_or.1 hno
      exact .create (mt List.contains_iff_mem.2 hnot) hhigh
  case h_11 =>
    split at h
    · obtain ⟨rfl, rfl⟩ := Prod.mk.inj (Option.some.inj h)
      exact .linked (by assumption)
    · obtain ⟨rfl, rfl⟩ := Prod.mk.inj (Option.some.inj h)
      exact .reads .notLinked
  case h_20 =>
    split at h
    · obtain ⟨rfl, rfl⟩ := Prod.mk.inj (Option.some.inj h)
      exact .taken (by assumption)
    · obtain ⟨rfl, rfl⟩ := Prod.mk.inj (Option.some.inj h)
      exact .reads .notTaken
  case h_26 => cases h
  all_goals
    obtain ⟨rfl, rfl⟩ := Prod.mk.inj (Option.some.inj h)
  · exact .reads .enqueue
  · exact .reads .dequeue
  · exact .setData
  · exact .setNext
  · exact .incTailCount
  · exact .reads .loadTail
  · split
    · exact .reads .last
    · next hno => exact .reads (.notLast hno)
  · split
    · next htail => exact .moved htail
    · exact .reads .notMoved
  · exact .reads .helpNext
  · split
    · next htail => exact .helped htail
    · exact .reads .notHelped
  · exact .incSize
  · split
    · exact .reads .empty
    · exact .reads .loadSize
  · exact .reads .loadHead
  · split
    · exact .reads .noNext
    · next hhigh => exact .reads (.headNext (by omega))
  · exact .reads .getData
  · split
    · exact .reads .tailBehind
    · next hne => exact .reads (.tailAhead hne)
  · exact .reads .fixNext
  · split
    · next htail => exact .fixed htail
    · next hne => exact .reads (.notFixed hne)
  · exact .free
  · exact .decSize

/-- **Every access keeps the invariant**, where the operations are spared. -/
theorem Inv.step (h : Inv id w) (hid : id.toNat < 64000) (hzero : id ≠ 0)
    (hst : step id w e = some w') (hspared : Spared w e w') : Inv id w' := by
  obtain ⟨pc, pc', hpc, hnext, ht⟩ := Pool.step_eq_some hst
  obtain ⟨hreuses, hmakes⟩ := hspared
  have hmem := List.mem_of_getElem? hpc
  have hknows := h.knows _ hmem
  have haction := action_of_access hnext
  generalize hs : w'.shared = s' at haction hnext
  generalize hev : e.2 = ev at haction hnext
  cases haction with
  | reads hreads => exact h.reads_step hid hpc ht hs hreads
  | other hother => exact h.of_other hzero hpc ht (hs ▸ hother)
  | reuse hpool =>
    refine h.alloc_step hpc ht hs (fun _ _ => ⟨rfl, rfl⟩) (fun _ hb => hb) h.shape.high
      (fun b => ?_) (fun _ hb => hb) (hreuses _ (by rw [hev]; rfl))
    rw [count_erase_add hpool]
  | @create a x hunused hhigh =>
    refine h.alloc_step hpc ht hs (h.kept_of_create hunused)
      (fun _ hb => List.mem_cons_of_mem _ hb) (high_create h.shape.high hhigh) (fun b => ?_)
      (ids_create hzero) fun r hr hexpects => hunused (h.expects_used hr hexpects)
    rw [count_used_create hunused]
    omega
  | @setData a x =>
    refine h.write_step (a := a) hpc ht hs (fun b hb => Function.update_of_ne hb _ _)
      (fun _ _ => rfl) rfl rfl rfl rfl rfl rfl rfl (fun _ hf => hf) ?_
    rw [hs]
    exact Function.update_self ..
  | @setNext a x =>
    refine h.write_step (a := a) hpc ht hs (fun _ _ => rfl)
      (fun b hb => Function.update_of_ne hb _ _) rfl rfl rfl rfl rfl rfl rfl (fun _ hf => hf) ?_
    rw [hs]
    exact ⟨hknows, Function.update_self ..⟩
  | incTailCount =>
    exact h.make_step hpc ht hs (hmakes _ (by rw [hpc]; rfl))
  | linked hlast => exact h.link_step hid hpc ht hs hlast
  | moved htail =>
    obtain ⟨⟨hheld, hle⟩, hv⟩ := hknows
    obtain rfl := h.not_moved hheld hle htail
    exact h.move_step hpc ht hs hv rfl rfl rfl rfl rfl trivial
  | helped htail =>
    obtain ⟨hready, ⟨hheld, hle⟩, hor⟩ := hknows
    obtain rfl := h.not_moved hheld hle htail
    refine h.move_step hpc ht hs (hor.resolve_left (lt_irrefl _)) rfl rfl rfl rfl rfl ?_
    rw [hs]
    exact hready
  | taken hhead => exact h.take_step hpc ht hs hhead
  | fixed htail =>
    obtain ⟨hheld, hlt, hv, -⟩ := hknows
    have hbehind := h.shape.behind
    obtain rfl := h.not_moved hheld (by omega) htail
    refine h.move_step hpc ht hs hv rfl rfl rfl rfl rfl ?_
    rw [hs]
    exact Nat.lt_succ_self _
  | free => exact h.free_step hpc ht hs
  | incSize | decSize =>
    exact h.untouched hpc ht hs rfl rfl rfl (fun hf => hf) trivial fun r _ => .of_none rfl rfl r

theorem Inv.initial {dummy : Address} (hzero : id ≠ 0) (hdummy : 64000 ≤ dummy.toNat) (n : ℕ) :
    Inv id (World.initial id dummy n : World T) := by
  have hidle : ∀ q ∈ (World.initial id dummy n : World T).threads, q = .idle :=
    fun q hq => (List.mem_replicate.1 hq).2
  have hone : ∀ {u : BitVec 64}, [dummy.setWidth 64][0]? = some u → pointer u = dummy := by
    intro u hu
    rw [← Option.some.inj hu, pointer_setWidth]
  refine ⟨⟨rfl, rfl, ?_, ?_, rfl, ?_, ?_, ?_, rfl, ?_, ?_⟩, fun a => ?_, ?_, fun a ha => ?_,
    fun q hq => ?_, fun q hq r _ => ?_⟩
  · exact Nat.le_succ 1
  · exact Nat.zero_le 1
  · intro i u v _ _ hv
    cases hv
  · rintro a ⟨u, hu, rfl⟩
    change Function.update (fun _ => (0 : BitVec 64)) dummy id (pointer u) = id
    rw [hone hu, Function.update_self]
  · intro i u _ hu
    cases hu
  · intro u hu
    rw [List.mem_singleton.1 hu, pointer_setWidth]
    exact List.mem_singleton_self dummy
  · intro a ha
    rw [List.mem_singleton.1 ha]
    exact hdummy
  · have hlive : live (World.initial id dummy n : World T).shared = [dummy] :=
      congrArg (fun b => [b]) (pointer_setWidth dummy)
    rw [hlive, Pool.total_of_forall_eq hidle (Pc.owns_eq_zero rfl rfl a), List.count_singleton]
    simp only [beq_iff_eq, World.initial, List.count_nil, List.mem_singleton, eq_comm (a := a),
      Nat.add_zero]
  · intro hno
    cases hno
  · change Function.update (fun _ => (0 : BitVec 64)) dummy id a = id at ha
    rw [Function.update_apply] at ha
    split at ha
    · next heq => exact .inl ⟨_, rfl, by rw [pointer_setWidth, heq]⟩
    · exact absurd ha.symm hzero
  · rw [hidle q hq]
    trivial
  · rw [hidle q hq]
    exact .of_none rfl rfl r

end Step

/-! ## The queue -/

section Queue

variable {id : BitVec 64} {w : World T}

/-- Words each of which is the `next` of the one before are a list. -/
theorem linked_of_words {next : Address → BitVec 64} {l : List (BitVec 64)}
    (hnext : ∀ k u v, l[k]? = some u → l[k + 1]? = some v → next (pointer u) = v ∧ v ≠ id)
    (hlast : ∀ u, l[l.length - 1]? = some u → next (pointer u) = id) {p : BitVec 64}
    (hp : l[0]? = some p) : Linked id next p (l.map pointer) := by
  induction l generalizing p with
  | nil => cases hp
  | cons u l ih =>
    obtain rfl := Option.some.inj hp
    cases l with
    | nil => exact ⟨rfl, hlast u rfl⟩
    | cons v l =>
      obtain ⟨heq, hne⟩ := hnext 0 u v rfl rfl
      refine ⟨rfl, heq ▸ hne, ih (fun k => hnext (k + 1)) hlast ?_⟩
      rw [heq]
      rfl

/-- What the invariant says of the queue. -/
theorem Inv.isQueue (h : Inv id w) (hid : id.toNat < 64000) :
    IsQueue id w.shared (live w.shared) := by
  have hshape := h.shape
  have hlength := hshape.length
  have hdequeued := hshape.dequeued_le
  refine ⟨linked_of_words ?_ ?_ ?_, h.nodup, ?_, fun a ha => ?_, ?_⟩
  · intro k u v hu hv
    rw [List.getElem?_drop] at hu hv
    refine ⟨hshape.next _ u v (Nat.le_add_right ..) hu hv, ?_⟩
    rintro rfl
    have hhigh := hshape.high _ (hshape.used v (List.mem_of_getElem? hv))
    rw [pointer_toNat] at hhigh
    omega
  · intro u hu
    rw [List.getElem?_drop, List.length_drop] at hu
    refine hshape.last _ ⟨u, ?_, rfl⟩
    rw [← hu]
    congr 1
    omega
  · rw [List.getElem?_drop]
    exact hshape.head
  · -- the values that are left are those of the words after the head
    have hrest : (live w.shared).tail.map w.shared.data =
        w.shared.enqueued.drop w.shared.dequeued.length := by
      unfold live
      rw [← List.map_tail, List.tail_drop, List.map_map]
      refine List.ext_getElem? fun k => ?_
      rw [List.getElem?_map, List.getElem?_drop, List.getElem?_drop, Nat.add_right_comm]
      cases hu : w.shared.words[w.shared.dequeued.length + k + 1]? with
      | none =>
        have hle := List.getElem?_eq_none_iff.1 hu
        exact (List.getElem?_eq_none (by omega)).symm
      | some u => exact (hshape.data _ u (Nat.le_add_right ..) hu).symm
    rw [hrest]
    calc w.shared.enqueued
        = w.shared.enqueued.take w.shared.dequeued.length ++
            w.shared.enqueued.drop w.shared.dequeued.length := (List.take_append_drop ..).symm
      _ = w.shared.dequeued ++ w.shared.enqueued.drop w.shared.dequeued.length := by
          rw [← hshape.dequeued]
  · exact ⟨(h.of_live ha).2.1, (h.of_live ha).2.2.1⟩
  · rcases h.tail_place with ⟨-, hlive⟩ | ⟨q, hq, htaken, -⟩
    · exact ⟨(h.of_live hlive).2.1, (h.of_live hlive).2.2.1⟩
    · obtain ⟨-, -, hpool, hothers, -⟩ := h.of_owns hq (Pc.owns_of_taken htaken)
      exact ⟨hpool, hothers⟩

variable [Inhabited T]

/-- **`TLSLockFreeQueue` is a FIFO queue**, in every run in which the operations
are spared: it is a list that ends with its number, what was taken are the first
values that were enqueued, and what is left are those of the list. No node that
it leads to was freed. -/
theorem fifo_of_spared {dummy : Address} {n : ℕ} (hzero : id ≠ 0) (hid : id.toNat < 64000)
    (hdummy : 64000 ≤ dummy.toNat)
    (h : Runs (step id) Spared (World.initial id dummy n : World T) w) :
    ∃ nodes, IsQueue id w.shared nodes := by
  have hinv : Inv id w := h.invariant (.initial hzero hdummy n) fun hv hst hspared =>
    hv.step hid hzero hst hspared
  exact ⟨_, hinv.isQueue hid⟩

/-- Two threads. The first has linked its node and not moved the tail; the second
moves it on, takes the first value, and gets the node it has freed again. -/
def tailLags : List (ℕ × Event ℕ) :=
  [(0, .enqueue 5), (0, .create 65552)] ++ List.replicate 6 (0, .go) ++
    [(1, .enqueue 6), (1, .create 65568)] ++ List.replicate 12 (1, .go) ++
    (1, .dequeue) :: List.replicate 8 (1, .go) ++
    [(1, .enqueue 7), (1, .reuse 65536)] ++ List.replicate 8 (1, .go) ++
    [(0, .go), (0, .go)] ++ (1, .dequeue) :: List.replicate 8 (1, .go)

theorem fifo_of_spared_lag : ∃ w : World ℕ,
    exec (step 1) (World.initial 1 65536 2) tailLags = some w ∧
      (∃ nodes, IsQueue 1 w.shared nodes) ∧ w.shared.enqueued = [5, 6, 7] ∧
      w.shared.dequeued = [5, 6] := by
  obtain ⟨w, hw, heq⟩ := Option.map_eq_some_iff.1
    (show (exec (step 1) (World.initial 1 65536 2 : World ℕ) tailLags).map
      (fun w => (w.shared.enqueued, w.shared.dequeued)) = some ([5, 6, 7], [5, 6]) by rfl)
  obtain ⟨henq, hdeq⟩ := Prod.mk.inj heq
  exact ⟨w, hw, fifo_of_spared (by decide) (by decide) (by decide)
    (runs_of_exec hw (by decide +kernel)), henq, hdeq⟩

/-- **Not so where a node is handed out again** while an `Enqueue` expects it to
be the last one: it has the number of the queue before it is linked, and the
`Enqueue` links its own node behind it. What is enqueued after that is taken
before. -/
theorem fifo_reused : ∃ w : World ℕ,
    Runs (step 1) (fun _ _ _ => True) (World.initial 1 65536 2) w ∧
      ∀ nodes, ¬ IsQueue 1 w.shared nodes := by
  obtain ⟨w, hw, heq⟩ := Option.map_eq_some_iff.1
    (show (exec (step 1) (World.initial 1 65536 2 : World ℕ)
      ([(1, .enqueue 10), (1, .create 65552)] ++ List.replicate 8 (1, .go) ++
        [(0, .enqueue 20), (0, .create 65664)] ++ List.replicate 5 (0, .go) ++
        [(1, .enqueue 11), (1, .create 65568)] ++ List.replicate 8 (1, .go) ++
        (1, .dequeue) :: List.replicate 8 (1, .go) ++
        (1, .dequeue) :: List.replicate 8 (1, .go) ++
        [(1, .enqueue 12), (1, .reuse 65552), (1, .go), (1, .go), (0, .go), (0, .go), (0, .go),
          (0, .enqueue 21), (0, .create 65600)] ++ List.replicate 8 (0, .go) ++
        List.replicate 6 (1, .go) ++ (1, .dequeue) :: List.replicate 8 (1, .go))).map
      (fun w => (w.shared.enqueued, w.shared.dequeued)) =
        some ([10, 11, 20, 21, 12], [10, 11, 21]) by rfl)
  obtain ⟨henq, hdeq⟩ := Prod.mk.inj heq
  refine ⟨w, .of_exec hw, fun nodes hqueue => ?_⟩
  have hvalues := hqueue.values
  rw [henq, hdeq] at hvalues
  cases hvalues

end Queue

end TLSLockFreeQueue

end NetLib
