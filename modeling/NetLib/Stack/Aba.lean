import Mathlib.Data.List.Nodup
import NetLib.Stack.Model
/-!
# `LockFreeStack` is safe against ABA

Every node that was ever handed out is at one place: on the list, in the
pool, or with one thread. A thread inside `Pop` that holds an old top knows:
if no push has succeeded since, its node is either still the first of the
list, with the fields as read, or not on the list at all. The tag says
whether a push has succeeded, as long as it has not gone once around.
-/

namespace NetLib

namespace LockFreeStack

open LockFreeData

variable {T : Type}

/-! ## The invariant -/

/-- Does the node belong to the thread? -/
def Pc.owns (a : Address) : Pc T → ℕ
  | .setData _ n _ | .loadPush _ n _ | .setNext _ n _ _ _ | .casPush _ n _ _ _
  | .decrement _ _ n _ | .free _ _ n _ => if n = a then 1 else 0
  | _ => 0

/-- Is the entry of the history the thread's? -/
def Pc.entered (n : ℕ) : Pc T → ℕ
  | .increment _ e _ | .decrement _ e _ _ | .free _ e _ _ => if e = n then 1 else 0
  | _ => 0

/-- The call of the thread and its entry in the history. -/
def Pc.Timed (history : List (Lifo.Op T)) : Pc T → Prop
  | .idle => True
  | .alloc c _ | .setData c _ _ | .loadPush c _ _ | .setNext c _ _ _ _ | .casPush c _ _ _ _
  | .loadPop c | .getData c _ _ | .getNext c _ _ _ | .casPop c _ _ _ _ => c ≤ history.length
  | .increment c e x => c ≤ e ∧ history[e]? = some (.push x)
  | .decrement c e _ x | .free c e _ x => c ≤ e ∧ history[e]? = some (.pop x)

/-- What a top that was read `n` successful pushes after the start still says,
with `P` about the first node of the list. -/
def Snapshot (s : LockFreeStack T) (nodes : List Address) (t : BitVec 64) (n : ℕ) (P : Prop) :
    Prop :=
  pointer t ≠ 0 ∧ tag t = n % 2 ^ 17 ∧ n ≤ s.pushes ∧
    (s.pushes = n → pointer t ∈ nodes → nodes.headD 0 = pointer t ∧ P)

/-- What a thread knows of the fields of its node. -/
def Pc.Knows (s : LockFreeStack T) (nodes : List Address) : Pc T → Prop
  | .loadPush _ a x | .setNext _ a x _ _ => s.data a = x
  | .casPush _ a x t _ => s.data a = x ∧ s.next a = pointer t
  | .getData _ t n => Snapshot s nodes t n True
  | .getNext _ t n x => Snapshot s nodes t n (s.data (pointer t) = x)
  | .casPop _ t n x a => Snapshot s nodes t n (s.data (pointer t) = x ∧ s.next (pointer t) = a)
  | _ => True

structure Inv (w : World T) (nodes : List Address) : Prop where
  list : IsList w.shared nodes
  nonnull : 0 ∉ w.shared.used
  /-- Every node is at one place. -/
  place : ∀ a, nodes.count a + w.shared.pool.count a + w.total (Pc.owns a) =
    if a ∈ w.shared.used then 1 else 0
  tagged : tag w.shared.top = w.shared.pushes % 2 ^ 17
  legal : Lifo.Legal w.shared.history (nodes.map w.shared.data)
  knows : ∀ q ∈ w.threads, q.Knows w.shared nodes
  /-- Every entry of the history has one operation. -/
  entries : ∀ n, (w.shared.returned.map Returned.entry).count n + w.total (Pc.entered n) =
    if n < w.shared.history.length then 1 else 0
  timed : ∀ q ∈ w.threads, q.Timed w.shared.history
  between : ∀ r ∈ w.shared.returned, r.called ≤ r.entry ∧ r.entry < r.ended ∧
    w.shared.history[r.entry]? = some r.op

theorem getElem?_of_prefix {α : Type} {h h' : List α} {n : ℕ} {o : α} (hle : h <+: h')
    (hget : h[n]? = some o) : h'[n]? = some o := by
  obtain ⟨t, rfl⟩ := hle
  obtain ⟨hlt, -⟩ := List.getElem?_eq_some_iff.1 hget
  rw [List.getElem?_append_left hlt, hget]

theorem Pc.Timed.mono {h h' : List (Lifo.Op T)} {q : Pc T} (hq : q.Timed h) (hle : h <+: h') :
    q.Timed h' := by
  have hlen := hle.length_le
  cases q with
  | idle => trivial
  | increment | decrement | free => exact ⟨hq.1, getElem?_of_prefix hle hq.2⟩
  | _ => exact le_trans hq hlen

theorem Linked.congr {f g : Address → Address} {nodes : List Address} (h : Linked f nodes)
    (heq : ∀ a ∈ nodes, g a = f a) : Linked g nodes := by
  induction nodes with
  | nil => trivial
  | cons a nodes ih =>
    obtain ⟨ha, hrest⟩ := h
    exact ⟨(heq a List.mem_cons_self).trans ha,
      ih hrest fun b hb => heq b (List.mem_cons_of_mem a hb)⟩

section Step

variable {w w' : World T} {e : ℕ × Event T} {pc pc' : Pc T} {nodes : List Address}

/-- A node of the list is in use, and belongs to no thread. -/
theorem Inv.of_mem (h : Inv w nodes) {a : Address} (ha : a ∈ nodes) :
    a ∈ w.shared.used ∧ w.total (Pc.owns a) = 0 := by
  have hplace := h.place a
  have := List.count_pos_iff.2 ha
  split at hplace
  · exact ⟨by assumption, by omega⟩
  · omega

/-- What one thread owns is in use, not on the list, and no other thread's. -/
theorem Inv.of_owns (h : Inv w nodes) {q : Pc T} (hq : q ∈ w.threads) {a : Address}
    (hown : q.owns a = 1) :
    a ∈ w.shared.used ∧ a ∉ nodes ∧ w.shared.pool.count a = 0 ∧ w.total (Pc.owns a) = 1 := by
  have hplace := h.place a
  have := Pool.le_total (Pc.owns a) hq
  have hmem : a ∈ w.shared.used := by
    by_contra hno
    rw [if_neg hno] at hplace
    omega
  rw [if_pos hmem] at hplace
  exact ⟨hmem, fun ha => by have := List.count_pos_iff.2 ha; omega, by omega, by omega⟩

theorem Snapshot.imp {s s' : LockFreeStack T} {t : BitVec 64} {n : ℕ} {P P' : Prop}
    (h : Snapshot s nodes t n P) (hpushes : s'.pushes = s.pushes)
    (himp : pointer t ∈ nodes → P → P') : Snapshot s' nodes t n P' := by
  obtain ⟨hne, htag, hle, hfirst⟩ := h
  refine ⟨hne, htag, hpushes ▸ hle, fun hn hmem => ?_⟩
  obtain ⟨hhead, hP⟩ := hfirst (hpushes ▸ hn) hmem
  exact ⟨hhead, himp hmem hP⟩

/-- What a thread knows it still knows as long as its node and the nodes of
the list keep their fields. -/
theorem Pc.Knows.frame {s s' : LockFreeStack T} {q : Pc T} (h : q.Knows s nodes)
    (hpushes : s'.pushes = s.pushes)
    (hfields : ∀ a, a ∈ nodes ∨ q.owns a = 1 → s'.data a = s.data a ∧ s'.next a = s.next a) :
    q.Knows s' nodes := by
  cases q with
  | loadPush c a x | setNext c a x t n =>
    exact (hfields a (.inr (if_pos rfl))).1.trans h
  | casPush c a x t n =>
    obtain ⟨hd, hn⟩ := hfields a (.inr (if_pos rfl))
    exact ⟨hd.trans h.1, hn.trans h.2⟩
  | getData c t n => exact h.imp hpushes fun _ _ => trivial
  | getNext c t n x => exact h.imp hpushes fun hmem hx => (hfields _ (.inl hmem)).1.trans hx
  | casPop c t n x a =>
    exact h.imp hpushes fun hmem hx =>
      ⟨(hfields _ (.inl hmem)).1.trans hx.1, (hfields _ (.inl hmem)).2.trans hx.2⟩
  | _ => trivial

/-- The steps that leave the list as it is. A thread writes only to a node
that is its own, or was not in use. -/
theorem Inv.same_list (h : Inv w nodes) (hpc : w.threads[e.1]? = some pc)
    (ht : w'.threads = w.threads.set e.1 pc') (htop : w'.shared.top = w.shared.top)
    (hhistory : w'.shared.history = w.shared.history)
    (hfields : ∀ a ∈ w.shared.used, pc.owns a = 0 →
      w'.shared.data a = w.shared.data a ∧ w'.shared.next a = w.shared.next a)
    (hplace : ∀ a, nodes.count a + w.shared.pool.count a + w.total (Pc.owns a) =
      (if a ∈ w.shared.used then 1 else 0) → pc.owns a ≤ w.total (Pc.owns a) →
      nodes.count a + w'.shared.pool.count a + w.total (Pc.owns a) + pc'.owns a =
        (if a ∈ w'.shared.used then 1 else 0) + pc.owns a)
    (hnonnull : 0 ∉ w'.shared.used) (hknows : pc'.Knows w'.shared nodes)
    (htimed : pc'.Timed w.shared.history)
    (hentries : ∀ n, (w'.shared.returned.map Returned.entry).count n + pc'.entered n =
      (w.shared.returned.map Returned.entry).count n + pc.entered n)
    (hbetween : ∀ r ∈ w'.shared.returned, r ∈ w.shared.returned ∨
      r.called ≤ r.entry ∧ r.entry < r.ended ∧ w.shared.history[r.entry]? = some r.op) :
    Inv w' nodes := by
  have hmem := List.mem_of_getElem? hpc
  have hpushes : w'.shared.pushes = w.shared.pushes := by rw [pushes, hhistory, pushes]
  have hlist : ∀ a ∈ nodes, w'.shared.data a = w.shared.data a ∧
      w'.shared.next a = w.shared.next a := by
    intro a ha
    obtain ⟨hused, hzero⟩ := h.of_mem ha
    exact hfields a hused (Pool.eq_zero_of_total hzero hmem)
  refine ⟨⟨htop ▸ h.list.top, h.list.linked.congr fun a ha => (hlist a ha).2, h.list.nonnull,
    h.list.nodup⟩, hnonnull, fun a => ?_, ?_, ?_, ?_, fun n => ?_, ?_, fun r hr => ?_⟩
  · have hmove := Pool.total_step (Pc.owns a) hpc ht
    have := hplace a (h.place a) (Pool.le_total _ hmem)
    omega
  · rw [htop, hpushes]
    exact h.tagged
  · rw [hhistory, List.map_congr_left fun a ha => (hlist a ha).1]
    exact h.legal
  · refine Pool.forall_threads_of_others ht (fun j q hj hq => ?_) hknows
    have hq' := List.mem_of_getElem? hq
    refine (h.knows q hq').frame hpushes fun a ha => ?_
    rcases ha with ha | hown
    · exact hlist a ha
    · -- a node of another thread is not this one's
      obtain ⟨hused, -, -, hone⟩ := h.of_owns hq' hown
      have hle := Pool.add_le_sum_map (Pc.owns a) hj hpc hq
      rw [Pool.total] at hone
      exact hfields a hused (by omega)
  · have hmove := Pool.total_step (Pc.entered n) hpc ht
    have hold := h.entries n
    have := hentries n
    rw [hhistory]
    omega
  · rw [hhistory]
    exact Pool.forall_threads ht h.timed htimed
  · rw [hhistory]
    rcases hbetween r hr with hold | hnew
    · exact h.between r hold
    · exact hnew

/-- An operation returns. What it owned goes to the pool. -/
theorem Inv.returned_step (h : Inv w nodes) {c n : ℕ} {o : Lifo.Op T} {pool : List Address}
    {count : BitVec 32} (hpc : w.threads[e.1]? = some pc)
    (ht : w'.threads = w.threads.set e.1 .idle)
    (hs : w'.shared = { w.shared with
      objectsInPool := count, pool := pool,
      returned := w.shared.returned ++ [⟨c, n, w.shared.history.length, o⟩] })
    (hpool : ∀ a, pool.count a = w.shared.pool.count a + pc.owns a)
    (hentered : ∀ m, pc.entered m = if n = m then 1 else 0)
    (hop : c ≤ n ∧ w.shared.history[n]? = some o) : Inv w' nodes := by
  refine h.same_list hpc ht (by rw [hs]) (by rw [hs]) (fun a _ _ => by rw [hs]; exact ⟨rfl, rfl⟩)
    (fun a hplace _ => ?_) (by rw [hs]; exact h.nonnull) trivial trivial (fun m => ?_)
    fun r hr => ?_
  · rw [hs]
    change _ + pool.count a + _ + 0 = (if a ∈ w.shared.used then 1 else 0) + _
    rw [hpool]
    omega
  · rw [hs, hentered]
    simp only [List.map_append, List.count_append, List.map_cons, List.map_nil,
      List.count_singleton, beq_iff_eq, Pc.entered, Nat.add_zero]
  · rw [hs] at hr
    rcases List.mem_append.1 hr with hr | hr
    · exact .inl hr
    · rw [List.mem_singleton.1 hr]
      obtain ⟨hlt, -⟩ := List.getElem?_eq_some_iff.1 hop.2
      exact .inr ⟨hop.1, hlt, hop.2⟩

/-- An operation takes effect. -/
theorem Inv.entries_step (h : Inv w nodes) (hpc : w.threads[e.1]? = some pc)
    (ht : w'.threads = w.threads.set e.1 pc') {o : Lifo.Op T}
    (hhistory : w'.shared.history = w.shared.history ++ [o])
    (hentered : ∀ n, (w'.shared.returned.map Returned.entry).count n + pc'.entered n =
      (w.shared.returned.map Returned.entry).count n + pc.entered n +
        if w.shared.history.length = n then 1 else 0) (n : ℕ) :
    (w'.shared.returned.map Returned.entry).count n + w'.total (Pc.entered n) =
      if n < w'.shared.history.length then 1 else 0 := by
  have hmove := Pool.total_step (Pc.entered n) hpc ht
  have hold := h.entries n
  have hnew := hentered n
  rw [hhistory, List.length_append, List.length_singleton]
  rcases lt_trichotomy n w.shared.history.length with hlt | heq | hgt
  · rw [if_pos hlt] at hold
    rw [if_neg hlt.ne'] at hnew
    rw [if_pos (by omega)]
    omega
  · rw [if_neg (by omega)] at hold
    rw [if_pos heq.symm] at hnew
    rw [if_pos (by omega)]
    omega
  · rw [if_neg (by omega)] at hold
    rw [if_neg (by omega)] at hnew
    rw [if_neg (by omega)]
    omega

/-- A compare-exchange of `Push` succeeds. -/
theorem Inv.push_step (h : Inv w nodes) {c n : ℕ} {a : Address} {x : T} {t : BitVec 64}
    (hpc : w.threads[e.1]? = some (.casPush c a x t n))
    (ht : w'.threads = w.threads.set e.1 (.increment c w.shared.history.length x))
    (hs : w'.shared = { w.shared with top := pushTop a w.shared.top,
                                      history := w.shared.history ++ [.push x] })
    (htop : w.shared.top = t) : Inv w' (a :: nodes) := by
  have hmem := List.mem_of_getElem? hpc
  obtain ⟨hdata, hnext⟩ := h.knows _ hmem
  obtain ⟨hused, hnot, -, -⟩ := h.of_owns (a := a) hmem (if_pos rfl)
  have hpushes : w'.shared.pushes = w.shared.pushes + 1 := by
    rw [hs]
    simp [pushes]
  have hhistory : w'.shared.history = w.shared.history ++ [.push x] := by rw [hs]
  have hprefix : w.shared.history <+: w'.shared.history := ⟨_, hhistory.symm⟩
  refine ⟨⟨?_, ?_, ?_, List.nodup_cons.2 ⟨hnot, h.list.nodup⟩⟩, ?_, fun b => ?_, ?_, ?_, ?_, ?_, ?_,
    fun r hr => ?_⟩
  · rw [hs]
    exact pointer_pushTop a _
  · rw [hs]
    exact ⟨hnext.trans (htop ▸ h.list.top), h.list.linked⟩
  · rintro hzero
    rcases List.mem_cons.1 hzero with rfl | hzero
    · exact h.nonnull hused
    · exact h.list.nonnull hzero
  · rw [hs]
    exact h.nonnull
  · have hmove := Pool.total_step (Pc.owns b) hpc ht
    have hplace := h.place b
    rw [hs, List.count_cons]
    simp only [Pc.owns, beq_iff_eq] at hmove ⊢
    change _ + _ + w.shared.pool.count b + _ = if b ∈ w.shared.used then 1 else 0
    omega
  · rw [hpushes, hs]
    change tag (pushTop a w.shared.top) = _
    rw [tag_pushTop, h.tagged]
    omega
  · rw [hs, List.map_cons, show w.shared.data a = x from hdata]
    exact h.legal.push x
  · refine Pool.forall_threads_of_others ht (fun j q hj hq => ?_) trivial
    have hold := h.knows q (List.mem_of_getElem? hq)
    -- whoever holds an older top now knows nothing
    have hstale {t : BitVec 64} {m : ℕ} {P P' : Prop} (hsnap : Snapshot w.shared nodes t m P) :
        Snapshot w'.shared (a :: nodes) t m P' :=
      ⟨hsnap.1, hsnap.2.1, by have := hsnap.2.2.1; omega, fun heq => by
        have := hsnap.2.2.1
        omega⟩
    cases q with
    | loadPush | setNext | casPush =>
      rw [hs]
      exact hold
    | getData | getNext | casPop => exact hstale hold
    | _ => trivial
  · refine h.entries_step hpc ht hhistory fun m => ?_
    rw [hs]
    rfl
  · exact Pool.forall_threads ht (fun q hq => (h.timed q hq).mono hprefix)
      ⟨h.timed _ hmem, by rw [hhistory, List.getElem?_concat_length]⟩
  · rw [hs] at hr
    obtain ⟨hle, hlt, hget⟩ := h.between r hr
    exact ⟨hle, hlt, getElem?_of_prefix hprefix hget⟩

/-- **A compare-exchange of `Pop` succeeds only on the top it has read**, with
the node it has read. -/
theorem Inv.pop_step (h : Inv w nodes) {c n : ℕ} {a : Address} {x : T} {t : BitVec 64}
    (hpc : w.threads[e.1]? = some (.casPop c t n x a))
    (ht : w'.threads = w.threads.set e.1 (.decrement c w.shared.history.length (pointer t) x))
    (hs : w'.shared = { w.shared with top := popTop a w.shared.top,
                                      history := w.shared.history ++ [.pop x] })
    (htop : w.shared.top = t) (hfresh : w.shared.pushes < n + 2 ^ 17) :
    ∃ nodes', nodes = pointer t :: nodes' ∧ Inv w' nodes' := by
  have hmem := List.mem_of_getElem? hpc
  obtain ⟨hne, htag, hle, hfirst⟩ := h.knows _ hmem
  -- the tag is the one read, so no push has succeeded
  have hsame : w.shared.pushes = n := by
    have := h.tagged
    rw [htop, htag] at this
    omega
  obtain ⟨nodes', rfl⟩ : ∃ nodes', nodes = pointer t :: nodes' := by
    have hhead := h.list.top
    rw [htop] at hhead
    cases nodes with
    | nil => exact absurd hhead hne
    | cons b nodes' => exact ⟨nodes', by rw [hhead]; rfl⟩
  obtain ⟨-, hdata, hnext⟩ := hfirst hsame List.mem_cons_self
  obtain ⟨hnot, hnodup⟩ := List.nodup_cons.1 h.list.nodup
  obtain ⟨hlink, hlinked⟩ := h.list.linked
  have hpushes : w'.shared.pushes = w.shared.pushes := by
    rw [hs]
    simp [pushes]
  have hhistory : w'.shared.history = w.shared.history ++ [.pop x] := by rw [hs]
  have hprefix : w.shared.history <+: w'.shared.history := ⟨_, hhistory.symm⟩
  refine ⟨nodes', rfl, ⟨?_, ?_, fun hzero => h.list.nonnull (List.mem_cons_of_mem _ hzero), hnodup⟩,
    ?_, fun b => ?_, ?_, ?_, ?_, ?_, ?_, fun r hr => ?_⟩
  · rw [hs, ← hlink, hnext]
    exact pointer_popTop a _
  · rw [hs]
    exact hlinked
  · rw [hs]
    exact h.nonnull
  · have hmove := Pool.total_step (Pc.owns b) hpc ht
    have hplace := h.place b
    rw [hs]
    rw [List.count_cons] at hplace
    simp only [Pc.owns, beq_iff_eq] at hmove hplace
    change _ + w.shared.pool.count b + _ = if b ∈ w.shared.used then 1 else 0
    omega
  · rw [hpushes, hs]
    change tag (popTop a w.shared.top) = _
    rw [tag_popTop, h.tagged]
  · rw [hs]
    refine .pop ?_
    rw [← hdata]
    exact h.legal
  · refine Pool.forall_threads_of_others ht (fun j q hj hq => ?_) trivial
    have hold := h.knows q (List.mem_of_getElem? hq)
    -- the first node has left the list, and a node further down is not first
    have hgone {t' : BitVec 64} {m : ℕ} {P : Prop}
        (hsnap : Snapshot w.shared (pointer t :: nodes') t' m P) :
        Snapshot w'.shared nodes' t' m P := by
      obtain ⟨hne', htag', hle', hfirst'⟩ := hsnap
      refine ⟨hne', htag', hpushes ▸ hle', fun heq hin => ?_⟩
      obtain ⟨hhead, -⟩ := hfirst' (hpushes ▸ heq) (List.mem_cons_of_mem _ hin)
      have hsame' : pointer t = pointer t' := hhead
      exact absurd (hsame' ▸ hin) hnot
    cases q with
    | loadPush | setNext | casPush =>
      rw [hs]
      exact hold
    | getData | getNext | casPop =>
      have := hgone hold
      rw [hs] at this ⊢
      exact this
    | _ => trivial
  · refine h.entries_step hpc ht hhistory fun m => ?_
    rw [hs]
    rfl
  · exact Pool.forall_threads ht (fun q hq => (h.timed q hq).mono hprefix)
      ⟨h.timed _ hmem, by rw [hhistory, List.getElem?_concat_length]⟩
  · rw [hs] at hr
    obtain ⟨hle, hlt, hget⟩ := h.between r hr
    exact ⟨hle, hlt, getElem?_of_prefix hprefix hget⟩

/-- `Pop` reads an empty top. -/
theorem Inv.empty_step (h : Inv w nodes) {c : ℕ} (hpc : w.threads[e.1]? = some (.loadPop c))
    (ht : w'.threads = w.threads.set e.1 .idle)
    (hs : w'.shared = { w.shared with history := w.shared.history ++ [.empty], returned :=
      w.shared.returned ++ [⟨c, w.shared.history.length, w.shared.history.length + 1, .empty⟩] })
    (hnull : pointer w.shared.top = 0) : Inv w' nodes := by
  have hmem := List.mem_of_getElem? hpc
  obtain rfl : nodes = [] := by
    have hhead := h.list.top
    cases nodes with
    | nil => rfl
    | cons b nodes' =>
      obtain rfl : 0 = b := hnull.symm.trans hhead
      exact absurd List.mem_cons_self h.list.nonnull
  have hpushes : w'.shared.pushes = w.shared.pushes := by
    rw [hs]
    simp [pushes]
  have hhistory : w'.shared.history = w.shared.history ++ [.empty] := by rw [hs]
  have hprefix : w.shared.history <+: w'.shared.history := ⟨_, hhistory.symm⟩
  refine ⟨⟨?_, trivial, nofun, List.nodup_nil⟩, ?_, fun b => ?_, ?_, ?_, ?_, ?_, ?_, fun r hr => ?_⟩
  · rw [hs]
    exact hnull
  · rw [hs]
    exact h.nonnull
  · have hmove := Pool.total_step (Pc.owns b) hpc ht
    have hplace := h.place b
    rw [hs]
    simp only [Pc.owns] at hmove
    change _ + w.shared.pool.count b + _ = if b ∈ w.shared.used then 1 else 0
    omega
  · rw [hpushes, hs]
    exact h.tagged
  · rw [hs]
    exact h.legal.empty
  · refine Pool.forall_threads ht (fun q hq => (h.knows q hq).frame hpushes fun a _ => ?_) trivial
    rw [hs]
    exact ⟨rfl, rfl⟩
  · refine h.entries_step hpc ht hhistory fun m => ?_
    rw [hs]
    simp only [List.map_append, List.count_append, List.map_cons, List.map_nil,
      List.count_singleton, Pc.entered, beq_iff_eq, Nat.add_zero]
  · exact Pool.forall_threads ht (fun q hq => (h.timed q hq).mono hprefix) trivial
  · rw [hs] at hr
    rcases List.mem_append.1 hr with hr | hr
    · obtain ⟨hle, hlt, hget⟩ := h.between r hr
      exact ⟨hle, hlt, getElem?_of_prefix hprefix hget⟩
    · rw [List.mem_singleton.1 hr, hhistory]
      exact ⟨h.timed _ hmem, Nat.lt_succ_self _, List.getElem?_concat_length⟩

/-- `Alloc` hands out a node of the pool, which is the thread's then. -/
theorem Inv.reuse_step (h : Inv w nodes) {c : ℕ} {a : Address} {x : T}
    (hpc : w.threads[e.1]? = some (.alloc c x))
    (ht : w'.threads = w.threads.set e.1 (.setData c a x))
    (hs : w'.shared = { w.shared with pool := w.shared.pool.erase a })
    (hpool : a ∈ w.shared.pool) : Inv w' nodes := by
  have htimed := h.timed _ (List.mem_of_getElem? hpc)
  refine h.same_list hpc ht (by rw [hs]) (by rw [hs])
    (fun b _ _ => by rw [hs]; exact ⟨rfl, rfl⟩) (fun b hplace _ => ?_)
    (by rw [hs]; exact h.nonnull) trivial htimed
    (fun n => by rw [hs]; rfl) (fun r hr => .inl (by rwa [hs] at hr))
  have hpos := List.count_pos_iff.2 hpool
  rw [hs, List.count_erase]
  simp only [Pc.owns, beq_iff_eq]
  change _ + _ + _ + (if a = b then 1 else 0) = (if b ∈ w.shared.used then 1 else 0) + 0
  by_cases hab : a = b
  · subst hab
    rw [if_pos rfl]
    omega
  · rw [if_neg hab]
    omega

/-- A thread writes to a node of its own. -/
theorem Inv.write_step (h : Inv w nodes) {a : Address} {data : Address → T}
    {next : Address → Address} (hpc : w.threads[e.1]? = some pc)
    (ht : w'.threads = w.threads.set e.1 pc')
    (hs : w'.shared = { w.shared with data := data, next := next })
    (hdata : ∀ b ≠ a, data b = w.shared.data b) (hnext : ∀ b ≠ a, next b = w.shared.next b)
    (howns : ∀ b, pc.owns b = if a = b then 1 else 0) (howns' : ∀ b, pc'.owns b = pc.owns b)
    (hentered : ∀ n, pc'.entered n = pc.entered n) (hknows : pc'.Knows w'.shared nodes)
    (htimed : pc'.Timed w.shared.history) : Inv w' nodes := by
  refine h.same_list hpc ht (by rw [hs]) (by rw [hs]) (fun b _ hb => ?_)
    (fun b hplace _ => ?_) (by rw [hs]; exact h.nonnull) hknows htimed
    (fun n => by rw [hs, hentered]) (fun r hr => .inl (by rwa [hs] at hr))
  · have hba : b ≠ a := fun heq => by
      rw [howns, if_pos heq.symm] at hb
      cases hb
    rw [hs]
    exact ⟨hdata b hba, hnext b hba⟩
  · have hpool : w'.shared.pool = w.shared.pool := by rw [hs]
    have hused : w'.shared.used = w.shared.used := by rw [hs]
    rw [hpool, hused, howns']
    omega

/-- What the invariant says of the stack alone. -/
theorem Inv.linearizable (h : Inv w nodes) : Linearizable w.shared nodes where
  list := h.list
  legal := h.legal
  conserved := h.legal.conserved
  between := h.between
  apart := by
    refine List.nodup_iff_count_le_one.2 fun n => ?_
    have := h.entries n
    split at this <;> omega
  index := fun x hone a b c heq => h.legal.push_between hone heq

variable [Inhabited T]

theorem Inv.initial (n : ℕ) : Inv (World.initial n : World T) [] := by
  have hidle : ∀ q ∈ (World.initial n : World T).threads, q = .idle :=
    fun q hq => (List.mem_replicate.1 hq).2
  have hzero (f : Pc T → ℕ) (hf : f .idle = 0) : (World.initial n : World T).total f = 0 :=
    Pool.total_of_forall_eq hidle hf
  refine ⟨⟨?_, trivial, nofun, List.nodup_nil⟩, nofun, fun a => ?_, ?_, .nil, fun q hq => ?_,
    fun n => ?_, fun q hq => ?_, nofun⟩
  · change pointer 0#64 = 0
    decide
  · rw [hzero _ rfl]
    rfl
  · change tag 0#64 = 0
    decide
  · rw [hidle q hq]
    trivial
  · rw [hzero _ rfl]
    rfl
  · rw [hidle q hq]
    trivial

/-- `Alloc` hands out a node that nobody has had. -/
theorem Inv.create_step (h : Inv w nodes) {c : ℕ} {a : Address} {x : T}
    (hpc : w.threads[e.1]? = some (.alloc c x))
    (ht : w'.threads = w.threads.set e.1 (.setData c a x))
    (hs : w'.shared = { w.shared with
      used := a :: w.shared.used, data := Function.update w.shared.data a default
      next := Function.update w.shared.next a 0 })
    (hunused : a ∉ w.shared.used) (hne : a ≠ 0) : Inv w' nodes := by
  have htimed := h.timed _ (List.mem_of_getElem? hpc)
  refine h.same_list hpc ht (by rw [hs]) (by rw [hs]) (fun b hb _ => ?_)
    (fun b hplace _ => ?_) ?_ trivial htimed
    (fun n => by rw [hs]; rfl) (fun r hr => .inl (by rwa [hs] at hr))
  · have hba : b ≠ a := fun heq => hunused (heq ▸ hb)
    rw [hs]
    exact ⟨Function.update_of_ne hba _ _, Function.update_of_ne hba _ _⟩
  · rw [hs]
    simp only [Pc.owns, List.mem_cons]
    by_cases hab : a = b
    · subst hab
      rw [if_neg hunused] at hplace
      rw [if_pos rfl, if_pos (.inl rfl)]
      omega
    · rw [if_neg hab]
      simp only [Ne.symm hab, false_or]
      omega
  · rw [hs]
    exact fun hzero => (List.mem_cons.1 hzero).elim (fun heq => hne heq.symm) h.nonnull

/-- The accesses of a thread, told apart by what they find. -/
inductive Action (s : LockFreeStack T) : Pc T → Event T → LockFreeStack T → Pc T → Prop
  | push {x : T} : Action s .idle (.push x) s (.alloc s.history.length x)
  | pop : Action s .idle .pop s (.loadPop s.history.length)
  | reuse {c : ℕ} {a : Address} {x : T} : a ∈ s.pool →
    Action s (.alloc c x) (.reuse a) { s with pool := s.pool.erase a } (.setData c a x)
  | create {c : ℕ} {a : Address} {x : T} : a ∉ s.used → a ≠ 0 →
    Action s (.alloc c x) (.create a)
      { s with
        used := a :: s.used, data := Function.update s.data a default
        next := Function.update s.next a 0 } (.setData c a x)
  | setData {c : ℕ} {a : Address} {x : T} :
    Action s (.setData c a x) .go { s with data := Function.update s.data a x } (.loadPush c a x)
  | loadPush {c : ℕ} {a : Address} {x : T} :
    Action s (.loadPush c a x) .go s (.setNext c a x s.top s.pushes)
  | setNext {c n : ℕ} {a : Address} {x : T} {t : BitVec 64} :
    Action s (.setNext c a x t n) .go { s with next := Function.update s.next a (pointer t) }
      (.casPush c a x t n)
  | pushed {c n : ℕ} {a : Address} {x : T} :
    Action s (.casPush c a x s.top n) .go
      { s with top := pushTop a s.top, history := s.history ++ [.push x] }
      (.increment c s.history.length x)
  | notPushed {c n : ℕ} {a : Address} {x : T} {t : BitVec 64} :
    Action s (.casPush c a x t n) .go s (.loadPush c a x)
  | increment {c n : ℕ} {x : T} :
    Action s (.increment c n x) .go
      { s with
        objectsInPool := s.objectsInPool + 1
        returned := s.returned ++ [⟨c, n, s.history.length, .push x⟩] } .idle
  | empty {c : ℕ} : pointer s.top = 0 →
    Action s (.loadPop c) .go
      { s with
        history := s.history ++ [.empty]
        returned := s.returned ++ [⟨c, s.history.length, s.history.length + 1, .empty⟩] } .idle
  | loadPop {c : ℕ} : pointer s.top ≠ 0 →
    Action s (.loadPop c) .go s (.getData c s.top s.pushes)
  | getData {c n : ℕ} {t : BitVec 64} :
    Action s (.getData c t n) .go s (.getNext c t n (s.data (pointer t)))
  | getNext {c n : ℕ} {x : T} {t : BitVec 64} :
    Action s (.getNext c t n x) .go s (.casPop c t n x (s.next (pointer t)))
  | popped {c n : ℕ} {a : Address} {x : T} :
    Action s (.casPop c s.top n x a) .go
      { s with top := popTop a s.top, history := s.history ++ [.pop x] }
      (.decrement c s.history.length (pointer s.top) x)
  | notPopped {c n : ℕ} {a : Address} {x : T} {t : BitVec 64} :
    Action s (.casPop c t n x a) .go s (.loadPop c)
  | decrement {c n : ℕ} {a : Address} {x : T} :
    Action s (.decrement c n a x) .go { s with objectsInPool := s.objectsInPool - 1 }
      (.free c n a x)
  | free {c n : ℕ} {a : Address} {x : T} :
    Action s (.free c n a x) .go
      { s with
        pool := a :: s.pool
        returned := s.returned ++ [⟨c, n, s.history.length, .pop x⟩] } .idle

/-- **Every access is one of these.** -/
theorem action_of_access {s s' : LockFreeStack T} {ev : Event T}
    (h : access s pc ev = some (s', pc')) : Action s pc ev s' pc' := by
  unfold access at h
  split at h
  case h_3 c x a =>
    split at h
    · obtain ⟨rfl, rfl⟩ := Prod.mk.inj (Option.some.inj h)
      exact .reuse (by assumption)
    · cases h
  case h_4 c x a =>
    split at h
    · cases h
    · next hno =>
      obtain ⟨rfl, rfl⟩ := Prod.mk.inj (Option.some.inj h)
      obtain ⟨hunused, hne⟩ := not_or.1 hno
      exact .create hunused hne
  case h_8 c a x t n =>
    split at h
    · next htop =>
      obtain ⟨rfl, rfl⟩ := Prod.mk.inj (Option.some.inj h)
      subst htop
      exact .pushed
    · obtain ⟨rfl, rfl⟩ := Prod.mk.inj (Option.some.inj h)
      exact .notPushed
  case h_10 c =>
    split at h
    · obtain ⟨rfl, rfl⟩ := Prod.mk.inj (Option.some.inj h)
      exact .empty (by assumption)
    · obtain ⟨rfl, rfl⟩ := Prod.mk.inj (Option.some.inj h)
      exact .loadPop (by assumption)
  case h_13 c t n x a =>
    split at h
    · next htop =>
      obtain ⟨rfl, rfl⟩ := Prod.mk.inj (Option.some.inj h)
      subst htop
      exact .popped
    · obtain ⟨rfl, rfl⟩ := Prod.mk.inj (Option.some.inj h)
      exact .notPopped
  case h_16 => cases h
  all_goals
    obtain ⟨rfl, rfl⟩ := Prod.mk.inj (Option.some.inj h)
    constructor

/-- **Every access keeps the list**, as long as the tag does not go once around
between a load and its compare-exchange. -/
theorem Inv.step (h : Inv w nodes) (hst : LockFreeStack.step w e = some w')
    (hfresh : Fresh w e w') : ∃ nodes', Inv w' nodes' := by
  obtain ⟨pc, pc', hpc, hnext, ht⟩ := Pool.step_eq_some hst
  have hmem := List.mem_of_getElem? hpc
  have hknows := h.knows _ hmem
  have htimed := h.timed _ hmem
  -- the steps that change nothing
  have hsame (hs : w'.shared = w.shared) (hown : ∀ a, pc'.owns a = pc.owns a)
      (hentered : ∀ n, pc'.entered n = pc.entered n) (hk : pc'.Knows w.shared nodes)
      (hti : pc'.Timed w.shared.history) : ∃ nodes', Inv w' nodes' := by
    refine ⟨nodes, h.same_list hpc ht (by rw [hs]) (by rw [hs])
      (fun a _ _ => by rw [hs]; exact ⟨rfl, rfl⟩)
      (fun a hplace _ => ?_) (by rw [hs]; exact h.nonnull) (by rw [hs]; exact hk) hti
      (fun n => by rw [hs, hentered]) (fun r hr => .inl (by rwa [hs] at hr))⟩
    rw [hs, hown]
    omega
  obtain ⟨i, e⟩ := e
  generalize hs : w'.shared = s at hnext
  cases action_of_access hnext with
  | push | pop => exact hsame hs (fun _ => rfl) (fun _ => rfl) trivial le_rfl
  | reuse hpool => exact ⟨nodes, h.reuse_step hpc ht hs hpool⟩
  | create hunused hne => exact ⟨nodes, h.create_step hpc ht hs hunused hne⟩
  | setData =>
    refine ⟨nodes, h.write_step hpc ht hs (fun b hb => Function.update_of_ne hb _ _)
      (fun _ _ => rfl) (fun _ => rfl) (fun _ => rfl) (fun _ => rfl) ?_ htimed⟩
    rw [hs]
    exact Function.update_self ..
  | loadPush => exact hsame hs (fun _ => rfl) (fun _ => rfl) hknows htimed
  | setNext =>
    refine ⟨nodes, h.write_step hpc ht hs (fun _ _ => rfl)
      (fun b hb => Function.update_of_ne hb _ _) (fun _ => rfl) (fun _ => rfl) (fun _ => rfl) ?_
      htimed⟩
    rw [hs]
    exact ⟨hknows, Function.update_self ..⟩
  | @pushed _ _ a => exact ⟨a :: nodes, h.push_step hpc ht hs rfl⟩
  | notPushed => exact hsame hs (fun _ => rfl) (fun _ => rfl) hknows.1 htimed
  | increment => exact ⟨nodes, h.returned_step hpc ht hs (fun _ => rfl) (fun _ => rfl) htimed⟩
  | empty hnull => exact ⟨nodes, h.empty_step hpc ht hs hnull⟩
  | loadPop hne =>
    exact hsame hs (fun _ => rfl) (fun _ => rfl)
      ⟨hne, h.tagged, le_rfl, fun _ _ => ⟨h.list.top.symm, trivial⟩⟩ htimed
  | getData =>
    exact hsame hs (fun _ => rfl) (fun _ => rfl) (hknows.imp rfl fun _ _ => rfl) htimed
  | getNext =>
    exact hsame hs (fun _ => rfl) (fun _ => rfl) (hknows.imp rfl fun _ hx => ⟨hx, rfl⟩) htimed
  | @popped _ n =>
    have hless : w.shared.pushes < n + 2 ^ 17 := hfresh n (by simp [hpc, Pc.loadedAt])
    obtain ⟨nodes', -, hinv⟩ := h.pop_step hpc ht hs rfl hless
    exact ⟨nodes', hinv⟩
  | notPopped => exact hsame hs (fun _ => rfl) (fun _ => rfl) trivial htimed
  | decrement =>
    refine ⟨nodes, h.same_list hpc ht (by rw [hs]) (by rw [hs])
      (fun b _ _ => by rw [hs]; exact ⟨rfl, rfl⟩) (fun b hplace _ => ?_)
      (by rw [hs]; exact h.nonnull) trivial htimed (fun n => by rw [hs]; rfl)
      (fun r hr => .inl (by rwa [hs] at hr))⟩
    rw [hs]
    simp only [Pc.owns]
    omega
  | free =>
    refine ⟨nodes, h.returned_step hpc ht hs (fun b => ?_) (fun _ => rfl) htimed⟩
    rw [List.count_cons]
    simp only [beq_iff_eq, Pc.owns]

end Step

/-- **`LockFreeStack` is linearizable**, whatever nodes the pool hands out. -/
theorem linearizable_of_fresh [Inhabited T] (n : ℕ) {w : World T}
    (h : Runs step Fresh (World.initial n) w) : ∃ nodes, Linearizable w.shared nodes := by
  obtain ⟨nodes, hinv⟩ := h.invariant (I := fun w => ∃ nodes, Inv w nodes)
    ⟨[], Inv.initial n⟩ fun ⟨_, hinv⟩ hst hfresh => hinv.step hst hfresh
  exact ⟨nodes, hinv.linearizable⟩

/-- Two threads. The first reads the top and its node; the second pops both
nodes and pushes twice, with the same nodes; the first is too late. -/
def reuseNodes : List (ℕ × Event (BitVec 16)) :=
  [(1, .push 1), (1, .create 16), (1, .go), (1, .go), (1, .go), (1, .go), (1, .go),
    (1, .push 2), (1, .create 32), (1, .go), (1, .go), (1, .go), (1, .go), (1, .go),
    (0, .pop), (0, .go), (0, .go), (0, .go),
    (1, .pop), (1, .go), (1, .go), (1, .go), (1, .go), (1, .go), (1, .go),
    (1, .pop), (1, .go), (1, .go), (1, .go), (1, .go), (1, .go), (1, .go),
    (1, .push 3), (1, .reuse 16), (1, .go), (1, .go), (1, .go), (1, .go), (1, .go),
    (1, .push 4), (1, .reuse 32), (1, .go), (1, .go), (1, .go), (1, .go), (1, .go),
    (0, .go), (0, .go), (0, .go), (0, .go), (0, .go), (0, .go), (0, .go)]

theorem linearizable_of_fresh_reuse : ∃ w : World (BitVec 16),
    exec step (World.initial 2) reuseNodes = some w ∧ (∃ nodes, Linearizable w.shared nodes) ∧
      w.shared.history = [.push 1, .push 2, .pop 2, .pop 1, .push 3, .push 4, .pop 4] := by
  obtain ⟨w, hw, heq⟩ := Option.map_eq_some_iff.1
    (show (exec step (World.initial 2 : World (BitVec 16)) reuseNodes).map
      (fun w => w.shared.history) = some _ by rfl)
  exact ⟨w, hw, linearizable_of_fresh 2 (runs_of_exec hw (by decide +kernel)), heq⟩

end LockFreeStack

end NetLib
