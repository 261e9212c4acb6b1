import Mathlib.Data.List.Range
import Mathlib.Logic.Function.Iterate
import NetLib.Pools.Lifetime
/-!
# `ModernObjectPool`

Slots that are owned by the vector `_pool` or by the `PoolPtr` that `Alloc`
returned, a `unique_ptr` whose deleter gives the slot back. In between, `Alloc`
holds the slot by a raw pointer: if the constructor of `T` throws there, nobody
owns it any more.
-/

namespace NetLib

/-- The pool. A slot is its address, and a new one gets the next address. -/
structure ModernObjectPool (Args : Type) where
  /-- `_pool`; its back is the last element. -/
  pool : List ℕ
  capacity : ℕ
  created : ℕ
  /-- What happened to each slot, the last event first. -/
  lifetime : ℕ → List (Lifetime Args)

namespace ModernObjectPool

variable {Args : Type}

section Model

-- the capacity a full vector grows to is the library's choice
variable (grow : ℕ → ℕ)

/-- `_pool.emplace_back(slot)` -/
def emplaceBack (p : ModernObjectPool Args) (slot : ℕ) : ModernObjectPool Args :=
  { p with
    pool := p.pool ++ [slot]
    capacity := if p.pool.length < p.capacity then p.capacity else grow p.capacity }

/-- A round of `expandPool`. -/
def addSlot (p : ModernObjectPool Args) : ModernObjectPool Args :=
  { p.emplaceBack grow p.created with
    created := p.created + 1
    lifetime := Function.update p.lifetime p.created [] }

def expandPool (count : ℕ) (p : ModernObjectPool Args) : ModernObjectPool Args :=
  (addSlot grow)^[count] p

/-- The constructor. -/
def init (initialSize : ℕ) : ModernObjectPool Args :=
  expandPool grow initialSize ⟨[], 0, 0, fun _ => []⟩

def size (p : ModernObjectPool Args) : ℕ := p.pool.length

def free (obj : ℕ) (p : ModernObjectPool Args) : ModernObjectPool Args :=
  { p with lifetime := Function.update p.lifetime obj (.destroy :: p.lifetime obj) }.emplaceBack
    grow obj

/-- `Alloc`, up to its `return`: `none` if the constructor of `T` throws. -/
def alloc (args : Args) (throws : Bool) (p : ModernObjectPool Args) :
    Option ℕ × ModernObjectPool Args :=
  let p := if p.pool.isEmpty then p.expandPool grow (p.capacity + 1) else p
  let objPtr := p.pool.getLastD 0
  let p := { p with pool := p.pool.dropLast }
  if throws then (none, p)
  else (some objPtr, { p with
    lifetime := Function.update p.lifetime objPtr (.construct args :: p.lifetime objPtr) })

end Model

/-! ## The pointers -/

/-- A `PoolPtr` that is not null: a variable, and the slot it owns. -/
structure PoolPtr where
  name : ℕ
  slot : ℕ
  deriving DecidableEq

/-- The pool and the live pointers. -/
structure Users (Args : Type) where
  pool : ModernObjectPool Args
  ptrs : List PoolPtr

inductive Call (Args : Type)
  /-- `dst = pool.Alloc(args)`, and whether the constructor throws. -/
  | alloc (dst : ℕ) (args : Args) (throws : Bool)
  /-- `dst = std::move(src)` -/
  | move (src dst : ℕ)
  /-- `dst = pool.Cast<Base>(std::move(src))` -/
  | cast (src dst : ℕ)
  /-- The variable goes out of scope. -/
  | destruct (name : ℕ)
  deriving DecidableEq

namespace Users

variable (grow : ℕ → ℕ)

def init (initialSize : ℕ) : Users Args := ⟨.init grow initialSize, []⟩

/-- `release()`: the slot, and the pointer is null. -/
def release (u : Users Args) (name : ℕ) : Option ℕ × Users Args :=
  match u.ptrs.find? fun ptr => ptr.name == name with
  | none => (none, u)
  | some ptr => (some ptr.slot, { u with ptrs := u.ptrs.erase ptr })

/-- `reset(slot)`: what the pointer owned before goes to the deleter. -/
def reset (u : Users Args) (name : ℕ) (slot : Option ℕ) : Users Args :=
  let (old, u) := u.release name
  let u := { u with ptrs := (slot.map fun slot => ⟨name, slot⟩).toList ++ u.ptrs }
  match old with
  | none => u
  | some old => { u with pool := u.pool.free grow old }

/-- `Cast` releases its argument and wraps the same slot: the deleter of the
new pointer casts back to `T*`. -/
def step (u : Users Args) : Call Args → Users Args
  | .alloc dst args throws =>
    match u.pool.alloc grow args throws with
    | (none, pool) => { u with pool := pool }
    | (some slot, pool) => { u with pool := pool }.reset grow dst (some slot)
  | .move src dst | .cast src dst =>
    let (slot, u) := u.release src
    u.reset grow dst slot
  | .destruct name => u.reset grow name none

/-- Every slot is in the pool or owned by one pointer, and the objects in them
were each destroyed once, but for those that are owned. -/
structure Conserved (u : Users Args) : Prop where
  slots : (u.pool.pool ++ u.ptrs.map PoolPtr.slot).Perm (List.range u.pool.created)
  size : u.pool.size + u.ptrs.length = u.pool.created
  pooled : ∀ slot ∈ u.pool.pool, Lifetime.Alternates false (u.pool.lifetime slot)
  owned : ∀ ptr ∈ u.ptrs, Lifetime.Alternates true (u.pool.lifetime ptr.slot)

/-- Nothing is lost before the calls, or after any of them. -/
def Conserves (u : Users Args) : List (Call Args) → Prop
  | [] => u.Conserved
  | c :: calls => u.Conserved ∧ Conserves (u.step grow c) calls

end Users

/-! ## What a call conserves -/

variable {grow : ℕ → ℕ} {p : ModernObjectPool Args} {u : Users Args} {held held' : List ℕ}

/-- Every slot is in the pool or in `held`, and there is an object in those
that are held. -/
structure Whole (p : ModernObjectPool Args) (held : List ℕ) : Prop where
  slots : (p.pool ++ held).Perm (List.range p.created)
  pooled : ∀ slot ∈ p.pool, Lifetime.Alternates false (p.lifetime slot)
  owned : ∀ slot ∈ held, Lifetime.Alternates true (p.lifetime slot)

theorem Whole.perm (h : p.Whole held) (hperm : held.Perm held') : p.Whole held' :=
  ⟨(hperm.symm.append_left p.pool).trans h.slots, h.pooled,
    fun slot hslot => h.owned slot (hperm.mem_iff.2 hslot)⟩

theorem Whole.nodup (h : p.Whole held) : (p.pool ++ held).Nodup :=
  h.slots.nodup_iff.2 List.nodup_range

theorem Whole.lt (h : p.Whole held) {slot : ℕ} (hslot : slot ∈ p.pool ++ held) :
    slot < p.created := List.mem_range.1 (h.slots.mem_iff.1 hslot)

theorem Whole.size (h : p.Whole held) : p.size + held.length = p.created := by
  have := h.slots.length_eq
  rwa [List.length_append, List.length_range] at this

theorem Whole.addSlot (h : p.Whole held) : (p.addSlot grow).Whole held := by
  have hsame {slot : ℕ} (hslot : slot ∈ p.pool ++ held) :
      Function.update p.lifetime p.created [] slot = p.lifetime slot :=
    Function.update_of_ne (h.lt hslot).ne _ _
  refine ⟨?_, fun slot hslot => ?_, fun slot hslot => ?_⟩
  · change (p.pool ++ [p.created] ++ held).Perm (List.range (p.created + 1))
    rw [List.range_succ, List.append_assoc]
    refine (List.perm_append_comm.append_left p.pool).trans ?_
    rw [← List.append_assoc]
    exact h.slots.append_right _
  · change Lifetime.Alternates false (Function.update p.lifetime p.created [] slot)
    rcases List.mem_append.1 hslot with hslot | hslot
    · rw [hsame (List.mem_append_left held hslot)]
      exact h.pooled slot hslot
    · obtain rfl := List.mem_singleton.1 hslot
      rw [Function.update_self]
      trivial
  · change Lifetime.Alternates true (Function.update p.lifetime p.created [] slot)
    rw [hsame (List.mem_append_right p.pool hslot)]
    exact h.owned slot hslot

theorem Whole.expandPool (h : p.Whole held) (count : ℕ) :
    (p.expandPool grow count).Whole held := by
  rw [ModernObjectPool.expandPool]
  induction count with
  | zero => exact h
  | succ count ih =>
    rw [Function.iterate_succ_apply']
    exact ih.addSlot

variable (grow) in
theorem pool_expandPool_ne_nil (p : ModernObjectPool Args) (count : ℕ) :
    (p.expandPool grow (count + 1)).pool ≠ [] := by
  rw [expandPool, Function.iterate_succ_apply']
  simp [addSlot, emplaceBack]

/-- **`Free` returns a slot that is held.** -/
theorem Whole.free {obj : ℕ} (h : p.Whole (obj :: held)) : (p.free grow obj).Whole held := by
  have hnodup := List.perm_middle.nodup_iff.1 h.nodup
  have hsame {slot : ℕ} (hslot : slot ∈ p.pool ++ held) :
      Function.update p.lifetime obj (.destroy :: p.lifetime obj) slot = p.lifetime slot :=
    Function.update_of_ne (fun heq : slot = obj => (List.nodup_cons.1 hnodup).1 (heq ▸ hslot)) _ _
  refine ⟨?_, fun slot hslot => ?_, fun slot hslot => ?_⟩
  · change (p.pool ++ [obj] ++ held).Perm (List.range p.created)
    rw [List.append_assoc]
    exact h.slots
  · change Lifetime.Alternates false (Function.update p.lifetime obj (_ :: _) slot)
    rcases List.mem_append.1 hslot with hslot | hslot
    · rw [hsame (List.mem_append_left held hslot)]
      exact h.pooled slot hslot
    · obtain rfl := List.mem_singleton.1 hslot
      rw [Function.update_self]
      exact h.owned _ List.mem_cons_self
  · change Lifetime.Alternates true (Function.update p.lifetime obj (_ :: _) slot)
    rw [hsame (List.mem_append_right p.pool hslot)]
    exact h.owned slot (List.mem_cons_of_mem obj hslot)

variable (grow) in
/-- The pool `Alloc` takes a slot from has one. -/
theorem Whole.expanded (h : p.Whole held) :
    ∃ pool slot, (if p.pool.isEmpty then p.expandPool grow (p.capacity + 1) else p).Whole held ∧
      (if p.pool.isEmpty then p.expandPool grow (p.capacity + 1) else p).pool = pool ++ [slot] := by
  by_cases hempty : p.pool.isEmpty
  · rw [if_pos hempty]
    obtain ⟨pool, slot, hpool⟩ :=
      (List.eq_nil_or_concat' _).resolve_left (pool_expandPool_ne_nil grow p p.capacity)
    exact ⟨pool, slot, h.expandPool _, hpool⟩
  · rw [if_neg hempty]
    obtain ⟨pool, slot, hpool⟩ :=
      (List.eq_nil_or_concat' _).resolve_left (mt List.isEmpty_iff.2 hempty)
    exact ⟨pool, slot, h, hpool⟩

variable (grow) in
/-- **`Alloc` hands over a slot of the pool.** -/
theorem Whole.alloc (h : p.Whole held) (args : Args) :
    ∃ slot, (p.alloc grow args false).1 = some slot ∧
      (p.alloc grow args false).2.Whole (slot :: held) := by
  obtain ⟨pool, slot, hwhole, hpool⟩ := h.expanded grow
  simp only [ModernObjectPool.alloc, Bool.false_eq_true, if_false]
  generalize (if p.pool.isEmpty then p.expandPool grow (p.capacity + 1) else p) = p at hwhole hpool
  have hslots := hwhole.slots
  have hnodup := hwhole.nodup
  rw [hpool, List.append_assoc] at hslots hnodup
  have hnew : slot ∉ pool ++ held :=
    (List.nodup_cons.1 (List.perm_middle.nodup_iff.1 hnodup)).1
  refine ⟨slot, by simp [hpool], ?_⟩
  simp only [hpool, List.getLastD_concat, List.dropLast_concat]
  have hsame {n : ℕ} (hn : n ∈ pool ++ held) :
      Function.update p.lifetime slot (.construct args :: p.lifetime slot) n = p.lifetime n :=
    Function.update_of_ne (fun heq : n = slot => hnew (heq ▸ hn)) _ _
  refine ⟨hslots, fun n hn => ?_, fun n hn => ?_⟩
  · simp only
    rw [hsame (List.mem_append_left held hn)]
    exact hwhole.pooled n (by rw [hpool]; exact List.mem_append_left _ hn)
  · simp only
    rcases List.mem_cons.1 hn with rfl | hn
    · rw [Function.update_self]
      exact hwhole.pooled n (by rw [hpool]; exact List.mem_append_right _ List.mem_cons_self)
    · rw [hsame (List.mem_append_right pool hn)]
      exact hwhole.owned n hn

variable (grow) in
/-- **A constructor that throws costs a slot.** -/
theorem Whole.alloc_throws (h : p.Whole held) (args : Args) :
    (p.alloc grow args true).1 = none ∧
      (p.alloc grow args true).2.size + held.length + 1 = (p.alloc grow args true).2.created := by
  obtain ⟨pool, slot, hwhole, hpool⟩ := h.expanded grow
  simp only [ModernObjectPool.alloc, if_true, true_and]
  generalize (if p.pool.isEmpty then p.expandPool grow (p.capacity + 1) else p) = p at hwhole hpool
  have hsize := hwhole.size
  rw [ModernObjectPool.size, hpool, List.length_append, List.length_singleton] at hsize
  rw [ModernObjectPool.size, hpool, List.dropLast_concat]
  simp only
  omega

theorem conserved_iff : u.Conserved ↔ u.pool.Whole (u.ptrs.map PoolPtr.slot) := by
  constructor
  · exact fun h => ⟨h.slots, h.pooled, by simpa using h.owned⟩
  · intro h
    refine ⟨h.slots, ?_, h.pooled, by simpa using h.owned⟩
    rw [← h.size, List.length_map]

/-- What a pointer owned, and what the others own. -/
theorem Users.release_perm (u : Users Args) (name : ℕ) :
    (u.release name).2.pool = u.pool ∧
      ((u.release name).1.toList ++ (u.release name).2.ptrs.map PoolPtr.slot).Perm
        (u.ptrs.map PoolPtr.slot) := by
  unfold Users.release
  cases hfind : u.ptrs.find? fun ptr => ptr.name == name with
  | none => exact ⟨rfl, .refl _⟩
  | some ptr =>
    have hmem := List.mem_of_find?_eq_some hfind
    exact ⟨rfl, ((List.perm_cons_erase hmem).map PoolPtr.slot).symm⟩

/-- **`reset` keeps the slot it is given** and returns the one the pointer
owned. -/
theorem Users.reset_conserved {slot : Option ℕ} (name : ℕ)
    (h : u.pool.Whole (slot.toList ++ u.ptrs.map PoolPtr.slot)) :
    (u.reset grow name slot).Conserved := by
  obtain ⟨hpool, hperm⟩ := u.release_perm name
  rw [conserved_iff, Users.reset]
  generalize u.release name = r at hpool hperm
  obtain ⟨old, u'⟩ := r
  simp only at hpool hperm
  have hslots :
      ((slot.map fun slot => (⟨name, slot⟩ : PoolPtr)).toList ++ u'.ptrs).map PoolPtr.slot =
      slot.toList ++ u'.ptrs.map PoolPtr.slot := by
    cases slot <;> simp
  have hwhole := h.perm (hperm.symm.append_left slot.toList)
  rw [← hpool] at hwhole
  cases old with
  | none =>
    simp only
    rw [hslots]
    exact hwhole
  | some old =>
    simp only
    rw [hslots]
    exact (hwhole.perm List.perm_middle).free

/-- **What a call conserves.** -/
theorem Users.step_conserved_iff (h : u.Conserved) (c : Call Args) :
    (u.step grow c).Conserved ↔ ∀ dst args, c ≠ .alloc dst args true := by
  have hwhole := conserved_iff.1 h
  have hmove (src dst : ℕ) :
      ((u.release src).2.reset grow dst (u.release src).1).Conserved := by
    obtain ⟨hpool, hperm⟩ := u.release_perm src
    refine Users.reset_conserved dst ?_
    rw [hpool]
    exact hwhole.perm hperm.symm
  cases c with
  | move src dst => exact iff_of_true (hmove src dst) (by simp)
  | cast src dst => exact iff_of_true (hmove src dst) (by simp)
  | destruct name => exact iff_of_true (Users.reset_conserved name hwhole) (by simp)
  | alloc dst args throws =>
    cases throws with
    | false =>
      obtain ⟨slot, halloc, hheld⟩ := hwhole.alloc grow args
      refine iff_of_true ?_ (by simp)
      rw [Users.step]
      generalize u.pool.alloc grow args false = r at halloc hheld
      obtain ⟨_, pool⟩ := r
      simp only at halloc hheld
      rw [halloc]
      exact Users.reset_conserved dst hheld
    | true =>
      obtain ⟨halloc, hlost⟩ := hwhole.alloc_throws grow args
      refine iff_of_false (fun hconserved => ?_) (by simp)
      rw [Users.step] at hconserved
      generalize u.pool.alloc grow args true = r at halloc hlost hconserved
      obtain ⟨_, pool⟩ := r
      simp only at halloc hlost
      rw [halloc] at hconserved
      have hsize := hconserved.size
      rw [List.length_map] at hlost
      simp only at hsize
      omega

theorem Users.conserves_of_conserved (h : u.Conserved) (calls : List (Call Args)) :
    u.Conserves grow calls ↔ ∀ dst args, .alloc dst args true ∉ calls := by
  induction calls generalizing u with
  | nil => exact iff_of_true h (by simp)
  | cons c calls ih =>
    rw [Users.Conserves, and_iff_right h]
    constructor
    · intro hrest dst args hmem
      have hstep : (u.step grow c).Conserved := by
        cases calls with
        | nil => exact hrest
        | cons _ _ => exact hrest.1
      rcases List.mem_cons.1 hmem with rfl | hmem
      · exact (Users.step_conserved_iff h _).1 hstep dst args rfl
      · exact (ih hstep).1 hrest dst args hmem
    · intro hnone
      refine (ih ((Users.step_conserved_iff h c).2 fun dst args heq => ?_)).2
        fun dst args hmem => ?_
      · exact hnone dst args (heq ▸ List.mem_cons_self)
      · exact hnone dst args (List.mem_cons_of_mem c hmem)

/-- **The pool conserves its slots if and only if** no constructor throws. -/
theorem conserves_iff (grow : ℕ → ℕ) (initialSize : ℕ) (calls : List (Call Args)) :
    (Users.init grow initialSize).Conserves grow calls ↔
      ∀ dst args, .alloc dst args true ∉ calls := by
  refine Users.conserves_of_conserved (conserved_iff.2 ?_) calls
  exact Whole.expandPool ⟨.refl _, by simp, by simp [Users.init]⟩ initialSize

/-- **One slot, one constructor that throws**: nobody owns the slot. -/
theorem alloc_throws_loses :
    (Users.init id 1).step id (.alloc 0 () true) =
        ⟨{ (Users.init id 1).pool with pool := [] }, []⟩ ∧
      ¬(Users.init id 1).Conserves id [.alloc 0 () true] := by
  refine ⟨rfl, fun h => ?_⟩
  exact absurd h.2.size (by decide)

end ModernObjectPool

end NetLib
