import Mathlib.Algebra.Order.Ring.Int
import Mathlib.Data.Int.Notation
import NetLib.Library.Linked
import NetLib.Pools.Lifetime
/-!
# `MultiThreadObjectPool`

A free list of nodes, each with raw storage for a `T`. Who constructs the `T`
depends on the mode: with `UsePlacement`, `Alloc` does and `Free` destroys it;
without, the constructor of the pool is meant to. `createNode` constructs the
node, but no `T` in either mode, and `Alloc` returns what it makes of an empty
pool as it is.

The calls come one after another here, so that every compare-exchange finds
the `_top` it has read, and the tag in its upper bits decides nothing.
-/

namespace NetLib

/-- The pool. A node is its address, and a new one gets the next address. -/
structure MultiThreadObjectPool (Args : Type) where
  top : Option ℕ
  next : ℕ → Option ℕ
  count : ℤ
  created : ℕ
  /-- What happened to the storage of each node, the last event first. -/
  lifetime : ℕ → List (Lifetime Args)

namespace MultiThreadObjectPool

variable {Args : Type}

/-- `createNode`. Without `UsePlacement` it runs the constructor of `Node` a
second time, which clears the storage and constructs no `T` in it either. -/
def createNode (p : MultiThreadObjectPool Args) : ℕ × MultiThreadObjectPool Args :=
  (p.created, { p with
    next := Function.update p.next p.created none
    created := p.created + 1
    lifetime := Function.update p.lifetime p.created [] })

/-- A round of the loop in the constructor. -/
def addNode (p : MultiThreadObjectPool Args) : MultiThreadObjectPool Args :=
  let (newNode, p) := p.createNode
  { p with next := Function.update p.next newNode p.top, top := some newNode }

/-- The constructor. -/
def init (baseAllocSize : ℤ) : MultiThreadObjectPool Args :=
  addNode^[baseAllocSize.toNat] ⟨none, fun _ => none, baseAllocSize, 0, fun _ => []⟩

def size (p : MultiThreadObjectPool Args) : ℤ := p.count

def alloc (usePlacement : Bool) (args : Args) (p : MultiThreadObjectPool Args) :
    ℕ × MultiThreadObjectPool Args :=
  match p.top with
  | some topNode => (topNode, { p with
      top := p.next topNode
      count := p.count - 1
      lifetime := if usePlacement then
          Function.update p.lifetime topNode (.construct args :: p.lifetime topNode)
        else p.lifetime })
  | none => p.createNode

def free (usePlacement : Bool) (data : ℕ) (p : MultiThreadObjectPool Args) :
    MultiThreadObjectPool Args :=
  { p with
    top := some data
    next := Function.update p.next data p.top
    count := p.count + 1
    lifetime := if usePlacement then
        Function.update p.lifetime data (.destroy :: p.lifetime data)
      else p.lifetime }

/-! ## Who owns what -/

inductive Call (Args : Type)
  | alloc (args : Args)
  | free (data : ℕ)
  deriving DecidableEq

/-- The pool and its users: the objects they own, and how many calls of each
kind there were. -/
structure Users (Args : Type) where
  pool : MultiThreadObjectPool Args
  owned : List ℕ
  frees : ℕ
  /-- The calls of `Alloc` that the free list served. -/
  served : ℕ

namespace Users

def init (baseAllocSize : ℤ) : Users Args := ⟨.init baseAllocSize, [], 0, 0⟩

def step (usePlacement : Bool) (u : Users Args) : Call Args → Users Args
  | .alloc args =>
    let (data, pool) := u.pool.alloc usePlacement args
    { u with
      pool := pool
      owned := data :: u.owned
      served := if u.pool.top.isSome then u.served + 1 else u.served }
  | .free data =>
    { u with
      pool := u.pool.free usePlacement data
      owned := u.owned.erase data
      frees := u.frees + 1 }

/-- Only what is owned is freed. -/
def Allows (u : Users Args) : Call Args → Prop
  | .alloc _ => True
  | .free data => data ∈ u.owned

/-- `Alloc` hands out storage without an owner and with one `T` in it, made
from the arguments; or made by one run of the default constructor since the
storage was created. `Free` finds one `T` and destroys it. -/
def Sound (usePlacement : Bool) (u : Users Args) : Call Args → Prop
  | .alloc args =>
    let (data, pool) := u.pool.alloc usePlacement args
    data ∉ u.owned ∧
      if usePlacement then Lifetime.since (pool.lifetime data) = [.construct args]
      else pool.lifetime data = [.defaultConstruct]
  | .free data =>
    if usePlacement then (∃ e, Lifetime.since (u.pool.lifetime data) = [e]) ∧
      (u.pool.free true data).lifetime data = .destroy :: u.pool.lifetime data
    else (u.pool.free false data).lifetime data = u.pool.lifetime data

/-- `Size()` is the initial size, and the frees, less what was served. -/
def SizeExact (baseAllocSize : ℤ) (u : Users Args) : Prop :=
  u.pool.size = baseAllocSize + u.frees - u.served

/-- Every call of the run is allowed. -/
def Run (usePlacement : Bool) : Users Args → List (Call Args) → Prop
  | _, [] => True
  | u, c :: calls => u.Allows c ∧ Run usePlacement (u.step usePlacement c) calls

/-- Every call of the run is sound, and the size exact after it. -/
def Conforms (usePlacement : Bool) (baseAllocSize : ℤ) : Users Args → List (Call Args) → Prop
  | _, [] => True
  | u, c :: calls => u.Sound usePlacement c ∧
    (u.step usePlacement c).SizeExact baseAllocSize ∧
      Conforms usePlacement baseAllocSize (u.step usePlacement c) calls

end Users

/-- Every `Alloc` is one with `UsePlacement` that finds a free node; `n` nodes
are free at the start. -/
def NeverDry (usePlacement : Bool) : ℕ → List (Call Args) → Prop
  | _, [] => True
  | n, .alloc _ :: calls => (usePlacement = true ∧ 0 < n) ∧ NeverDry usePlacement (n - 1) calls
  | n, .free _ :: calls => NeverDry usePlacement (n + 1) calls

/-! ## What always holds -/

/-- The free list is linked to `l`; no node is in it twice, in it and owned,
or owned twice. -/
structure Inv (p : MultiThreadObjectPool Args) (l owned : List ℕ) : Prop where
  linked : Linked p.next p.top l
  nodup : (l ++ owned).Nodup
  lt : ∀ n ∈ l ++ owned, n < p.created

variable {p : MultiThreadObjectPool Args} {u : Users Args} {l owned : List ℕ}
variable {usePlacement : Bool} {baseAllocSize : ℤ}

/-- A node that is being made is new. -/
theorem Inv.created_notMem (h : p.Inv l owned) : p.created ∉ l ++ owned :=
  fun hmem => lt_irrefl _ (h.lt _ hmem)

theorem Inv.addNode (h : p.Inv l owned) : p.addNode.Inv (p.created :: l) owned := by
  have hnew := h.created_notMem
  have hfree : p.created ∉ l := fun hmem => hnew (List.mem_append_left owned hmem)
  refine ⟨?_, List.nodup_cons.2 ⟨hnew, h.nodup⟩, fun n hn => ?_⟩
  · exact (h.linked.update hfree none).push hfree
  · rcases List.mem_cons.1 hn with rfl | hn
    · exact Nat.lt_succ_self _
    · exact Nat.lt_succ_of_lt (h.lt n hn)

/-- The nodes of the constructor. -/
theorem inv_init (Args : Type) (baseAllocSize : ℤ) : ∃ l : List ℕ, l.length = baseAllocSize.toNat ∧
    (init baseAllocSize : MultiThreadObjectPool Args).Inv l [] ∧
    (init baseAllocSize : MultiThreadObjectPool Args).count = baseAllocSize ∧
    (init baseAllocSize : MultiThreadObjectPool Args).lifetime = fun _ => [] := by
  rw [init]
  generalize baseAllocSize.toNat = n
  induction n with
  | zero => exact ⟨[], rfl, ⟨rfl, .nil, by simp⟩, rfl, rfl⟩
  | succ n ih =>
    obtain ⟨l, hlen, hinv, hcount, hlifetime⟩ := ih
    rw [Function.iterate_succ_apply']
    refine ⟨_, ?_, hinv.addNode, hcount, ?_⟩
    · rw [List.length_cons, hlen]
    · change Function.update (MultiThreadObjectPool.lifetime _) _ [] = _
      rw [hlifetime]
      exact Function.update_eq_self _ _

/-- **`Alloc` hands out a node without an owner.** -/
theorem Inv.alloc (h : p.Inv l owned) (args : Args) :
    (p.alloc usePlacement args).1 ∉ owned ∧
      (p.alloc usePlacement args).2.Inv l.tail ((p.alloc usePlacement args).1 :: owned) := by
  have hlinked := h.linked
  cases l with
  | nil =>
    have hnone : p.top = none := hlinked
    have hnew : p.created ∉ owned := h.created_notMem
    rw [MultiThreadObjectPool.alloc, hnone]
    refine ⟨hnew, hnone, List.nodup_cons.2 ⟨hnew, h.nodup⟩, fun n hn => ?_⟩
    rcases List.mem_cons.1 hn with rfl | hn
    · exact Nat.lt_succ_self _
    · exact Nat.lt_succ_of_lt (h.lt n hn)
  | cons m l =>
    obtain ⟨hsome, hrest⟩ := hlinked
    have hperm : (l ++ m :: owned).Perm (m :: l ++ owned) := List.perm_middle
    rw [MultiThreadObjectPool.alloc, hsome]
    refine ⟨?_, hrest, hperm.nodup_iff.2 h.nodup, fun n hn => h.lt n (hperm.mem_iff.1 hn)⟩
    exact fun hmem => (List.nodup_cons.1 h.nodup).1 (List.mem_append_right l hmem)

/-- **`Free` takes an owned node back.** -/
theorem Inv.free (h : p.Inv l owned) {data : ℕ} (hdata : data ∈ owned) :
    (p.free usePlacement data).Inv (data :: l) (owned.erase data) := by
  have hperm : (data :: l ++ owned.erase data).Perm (l ++ owned) :=
    List.perm_middle.symm.trans ((List.perm_cons_erase hdata).symm.append_left l)
  have hfree : data ∉ l := fun hmem => (List.nodup_append.1 h.nodup).2.2 _ hmem _ hdata rfl
  exact ⟨h.linked.push hfree, hperm.nodup_iff.2 h.nodup, fun n hn => h.lt n (hperm.mem_iff.1 hn)⟩

/-- The free list after a call. -/
def freeAfter (l : List ℕ) : Call Args → List ℕ
  | .alloc _ => l.tail
  | .free data => data :: l

/-- **No storage has two owners**, whatever is called. -/
theorem Users.step_inv (h : u.pool.Inv l u.owned) {c : Call Args} (hc : u.Allows c) :
    (u.step usePlacement c).pool.Inv (freeAfter l c) (u.step usePlacement c).owned := by
  cases c with
  | alloc args => exact (h.alloc args).2
  | free data => exact h.free hc

/-- **`Size()` is exact**, whatever is called. -/
theorem Users.step_sizeExact (h : u.SizeExact baseAllocSize) (c : Call Args) :
    (u.step usePlacement c).SizeExact baseAllocSize := by
  simp only [SizeExact, MultiThreadObjectPool.size] at h ⊢
  cases c with
  | alloc args =>
    simp only [step, MultiThreadObjectPool.alloc]
    cases u.pool.top with
    | none => simpa [createNode] using h
    | some topNode =>
      simp only [Option.isSome_some, if_true]
      push_cast
      omega
  | free data =>
    simp only [step, MultiThreadObjectPool.free]
    push_cast
    omega

/-! ## What is constructed -/

/-- With `UsePlacement`, free storage is raw and owned storage has one `T`;
without, no storage ever has one. -/
structure Constructed (usePlacement : Bool) (p : MultiThreadObjectPool Args) (l owned : List ℕ) :
    Prop where
  raw : usePlacement = true → ∀ n ∈ l, Lifetime.since (p.lifetime n) = []
  built : usePlacement = true → ∀ n ∈ owned, ∃ e, Lifetime.since (p.lifetime n) = [e]
  never : usePlacement = false → ∀ n, p.lifetime n = []

/-- **When a call is sound.** -/
theorem sound_iff (h : u.pool.Inv l u.owned) (hbuilt : Constructed usePlacement u.pool l u.owned)
    {c : Call Args} (hc : u.Allows c) :
    u.Sound usePlacement c ↔ ∀ args, c = .alloc args → usePlacement = true ∧ 0 < l.length := by
  cases c with
  | free data =>
    refine iff_of_true ?_ (by simp)
    cases usePlacement with
    | false => exact rfl
    | true => exact ⟨hbuilt.built rfl data hc, Function.update_self ..⟩
  | alloc args =>
    simp only [Call.alloc.injEq, forall_eq', Users.Sound]
    rw [and_iff_right (h.alloc args).1, MultiThreadObjectPool.alloc]
    have hlinked := h.linked
    cases l with
    | nil =>
      have hnone : u.pool.top = none := hlinked
      refine iff_of_false ?_ (by simp)
      cases usePlacement <;> simp [hnone, createNode, Lifetime.since]
    | cons m l =>
      rw [hlinked.1]
      cases usePlacement with
      | false => simp [hbuilt.never rfl m]
      | true =>
        have hraw := hbuilt.raw rfl m List.mem_cons_self
        simp only [Lifetime.since] at hraw
        simp [Lifetime.since, hraw]

/-- **A sound call leaves storage as it should be.** -/
theorem Constructed.step (h : u.pool.Inv l u.owned)
    (hbuilt : Constructed usePlacement u.pool l u.owned) {c : Call Args} (hc : u.Allows c)
    (hserved : ∀ args, c = .alloc args → usePlacement = true ∧ 0 < l.length) :
    Constructed usePlacement (u.step usePlacement c).pool (freeAfter l c)
      (u.step usePlacement c).owned := by
  cases c with
  | alloc args =>
    obtain ⟨rfl, hpos⟩ := hserved args rfl
    have hlinked := h.linked
    cases l with
    | nil => exact absurd hpos (lt_irrefl 0)
    | cons m l =>
      have hraw := hbuilt.raw rfl m List.mem_cons_self
      have hm := (List.nodup_cons.1 h.nodup).1
      have hpool : (u.step true (.alloc args)).pool = (u.pool.alloc true args).2 := rfl
      have howned : (u.step true (.alloc args)).owned = m :: u.owned := by
        simp only [Users.step, MultiThreadObjectPool.alloc, hlinked.1]
      have hlifetime : (u.pool.alloc true args).2.lifetime =
          Function.update u.pool.lifetime m (.construct args :: u.pool.lifetime m) := by
        simp only [MultiThreadObjectPool.alloc, hlinked.1, if_true]
      refine ⟨fun _ n hn => ?_, fun _ n hn => ?_, by simp⟩
      · rw [hpool, hlifetime,
          Function.update_of_ne fun heq : n = m => hm (List.mem_append_left _ (heq ▸ hn))]
        exact hbuilt.raw rfl n (List.mem_cons_of_mem m hn)
      · rw [howned] at hn
        rw [hpool, hlifetime]
        rcases List.mem_cons.1 hn with rfl | hown
        · rw [Function.update_self]
          refine ⟨.construct args, ?_⟩
          simp only [Lifetime.since] at hraw
          simp [Lifetime.since, hraw]
        · rw [Function.update_of_ne fun heq : n = m => hm (List.mem_append_right l (heq ▸ hown))]
          exact hbuilt.built rfl n hown
  | free data =>
    have hnodup := (List.nodup_append.1 h.nodup).2.1
    have hfree : data ∉ l := fun hmem => (List.nodup_append.1 h.nodup).2.2 _ hmem _ hc rfl
    cases usePlacement with
    | false => exact ⟨by simp, by simp, fun _ => hbuilt.never rfl⟩
    | true =>
      have hlifetime : (u.step true (.free data)).pool.lifetime =
          Function.update u.pool.lifetime data (.destroy :: u.pool.lifetime data) := rfl
      refine ⟨fun _ n hn => ?_, fun _ n hn => ?_, by simp⟩
      · rw [hlifetime]
        rcases List.mem_cons.1 hn with rfl | hn
        · rw [Function.update_self]
          simp [Lifetime.since]
        · rw [Function.update_of_ne fun heq : n = data => hfree (heq ▸ hn)]
          exact hbuilt.raw rfl n hn
      · obtain ⟨hne, hn⟩ := (List.Nodup.mem_erase_iff hnodup).1 hn
        rw [hlifetime, Function.update_of_ne hne]
        exact hbuilt.built rfl n hn

theorem length_freeAfter (l : List ℕ) (c : Call Args) : (freeAfter l c).length =
    match c with
    | .alloc _ => l.length - 1
    | .free _ => l.length + 1 := by
  cases c <;> simp [freeAfter]

theorem neverDry_cons (n : ℕ) (c : Call Args) (calls : List (Call Args)) :
    NeverDry usePlacement n (c :: calls) ↔
      (∀ args, c = .alloc args → usePlacement = true ∧ 0 < n) ∧
        NeverDry usePlacement (match c with
          | .alloc _ => n - 1
          | .free _ => n + 1) calls := by
  cases c <;> simp [NeverDry]

theorem conforms_of_inv (calls : List (Call Args)) :
    ∀ {u : Users Args} {l : List ℕ}, u.pool.Inv l u.owned →
      Constructed usePlacement u.pool l u.owned → u.SizeExact baseAllocSize →
      u.Run usePlacement calls →
      (u.Conforms usePlacement baseAllocSize calls ↔ NeverDry usePlacement l.length calls) := by
  induction calls with
  | nil => exact fun _ _ _ _ => iff_of_true trivial trivial
  | cons c calls ih =>
    intro u l h hbuilt hsize hrun
    obtain ⟨hc, hrun⟩ := hrun
    have hsize : (u.step usePlacement c).SizeExact baseAllocSize := Users.step_sizeExact hsize c
    rw [Users.Conforms, sound_iff h hbuilt hc, and_iff_right hsize, neverDry_cons,
      ← length_freeAfter]
    refine and_congr_right fun hserved => ?_
    exact ih (Users.step_inv h hc) (hbuilt.step h hc hserved) hsize hrun

/-- **The pool hands out constructed objects if and only if** it constructs
them in `Alloc` and is never empty. -/
theorem conforms_iff (usePlacement : Bool) (baseAllocSize : ℤ) (calls : List (Call Args))
    (hrun : (Users.init baseAllocSize).Run usePlacement calls) :
    (Users.init baseAllocSize).Conforms usePlacement baseAllocSize calls ↔
      NeverDry usePlacement baseAllocSize.toNat calls := by
  obtain ⟨l, hlen, hinv, hcount, hlifetime⟩ := inv_init Args baseAllocSize
  rw [← hlen]
  refine conforms_of_inv calls (u := Users.init baseAllocSize) hinv ?_ ?_ hrun
  · exact ⟨fun _ n _ => by simp [Users.init, hlifetime, Lifetime.since],
      fun _ n hn => absurd hn (by simp [Users.init]), fun _ n => by simp [Users.init, hlifetime]⟩
  · simp [Users.SizeExact, Users.init, MultiThreadObjectPool.size, hcount]

/-- An object made, freed and made anew. -/
theorem conforms_iff_reuse :
    (Users.init 1).Conforms true 1 [.alloc 7, .free 0, .alloc 8] :=
  (conforms_iff true 1 [.alloc 7, .free 0, .alloc 8]
    ⟨trivial, List.mem_cons_self, trivial, trivial⟩).2
    ⟨⟨rfl, by decide⟩, ⟨rfl, by decide⟩, trivial⟩

/-- **Storage is handed out raw**: by the first `Alloc` without
`UsePlacement`, and by the first of an empty pool with it. -/
theorem alloc_raw :
    ((init 1).alloc false ()).2.lifetime ((init 1).alloc false ()).1 = [] ∧
      ((init 0).alloc true 7).2.lifetime ((init 0).alloc true 7).1 = [] ∧
      ¬(Users.init 1).Conforms false 1 [.alloc ()] ∧
      ¬(Users.init 0).Conforms true 0 [.alloc 7] := by
  refine ⟨rfl, rfl, fun h => ?_, fun h => ?_⟩
  · exact absurd h.1.2 (by decide)
  · exact absurd h.1.2 (by decide)

end MultiThreadObjectPool

end NetLib
