import Mathlib.Algebra.GroupWithZero.Nat
import Mathlib.Algebra.Order.BigOperators.Group.List
import Mathlib.Algebra.Order.Group.Nat
import Mathlib.Data.List.Basic
import Mathlib.Tactic.Common
/-!
# Pools of threads over shared memory

A pool is a shared state and a list of threads, each at a program point. A
step picks one thread and lets it take its next atomic action. Runs carry a
side condition on every step, so a theorem about the runs that meet some
condition is an induction like any other. Invariants of a pool are mostly
weights: a number for each program point, summed over the threads.
-/

/-! ## Runs -/

section Runs

variable {σ ε : Type*}

/-- `Runs step ok s t`: from `s` the system reaches `t`, every step of the
way meeting `ok`, which sees the state before, the event and the state
after. -/
inductive Runs (step : σ → ε → Option σ) (ok : σ → ε → σ → Prop) (s : σ) : σ → Prop
  | refl : Runs step ok s s
  | tail {t u : σ} {e : ε} : Runs step ok s t → step t e = some u → ok t e u → Runs step ok s u

namespace Runs

variable {step : σ → ε → Option σ} {ok ok' : σ → ε → σ → Prop} {s t u : σ}

/-- **Induction over a run**: what holds at the start and is kept by every
step that meets the condition holds at the end. -/
theorem invariant {I : σ → Prop} (h : Runs step ok s t) (hs : I s)
    (hstep : ∀ {v w : σ} {e : ε}, I v → step v e = some w → ok v e w → I w) : I t := by
  induction h with
  | refl => exact hs
  | tail _ hst hok ih => exact hstep ih hst hok

/-- A run under a condition is a run under a weaker one. -/
theorem mono (h : Runs step ok s t) (himp : ∀ {v w : σ} {e : ε}, ok v e w → ok' v e w) :
    Runs step ok' s t := by
  induction h with
  | refl => exact .refl
  | tail _ hst hok ih => exact .tail ih hst (himp hok)

theorem trans (h : Runs step ok s t) (h' : Runs step ok t u) : Runs step ok s u := by
  induction h' with
  | refl => exact h
  | tail _ hst hok ih => exact .tail ih hst hok

theorem head {e : ε} (hst : step s e = some t) (hok : ok s e t) (h : Runs step ok t u) :
    Runs step ok s u :=
  trans (.tail .refl hst hok) h

end Runs

/-- The state a list of events leads to. -/
def exec (step : σ → ε → Option σ) (s : σ) : List ε → Option σ
  | [] => some s
  | e :: es => (step s e).bind fun t => exec step t es

theorem exec_cons_iff {step : σ → ε → Option σ} {s u : σ} {e : ε} {es : List ε} :
    exec step s (e :: es) = some u ↔ ∃ t, step s e = some t ∧ exec step t es = some u :=
  Option.bind_eq_some_iff

/-- Executions one after the other. -/
theorem exec_append_iff {step : σ → ε → Option σ} {s u : σ} {es es' : List ε} :
    exec step s (es ++ es') = some u ↔
      ∃ t, exec step s es = some t ∧ exec step t es' = some u := by
  induction es generalizing s with
  | nil => simp [exec]
  | cons e es ih =>
    simp only [List.cons_append, exec_cons_iff, ih]
    constructor
    · rintro ⟨v, hv, t, ht, hu⟩
      exact ⟨t, ⟨v, hv, ht⟩, hu⟩
    · rintro ⟨t, ⟨v, hv, ht⟩, hu⟩
      exact ⟨v, hv, t, ht, hu⟩

theorem exec_append {step : σ → ε → Option σ} {s t u : σ} {es es' : List ε}
    (h : exec step s es = some t) (h' : exec step t es' = some u) :
    exec step s (es ++ es') = some u :=
  exec_append_iff.2 ⟨t, h, h'⟩

/-- Does every step of the execution meet a decidable condition? -/
def execMeets (step : σ → ε → Option σ) (ok : σ → ε → σ → Prop)
    [∀ s e t, Decidable (ok s e t)] (s : σ) : List ε → Bool
  | [] => true
  | e :: es =>
    match step s e with
    | none => false
    | some t => decide (ok s e t) && execMeets step ok t es

theorem execMeets_cons {step : σ → ε → Option σ} {ok : σ → ε → σ → Prop}
    [∀ s e t, Decidable (ok s e t)] {s t : σ} {e : ε} {es : List ε} (h : step s e = some t)
    (hok : execMeets step ok s (e :: es) = true) : ok s e t ∧ execMeets step ok t es = true := by
  simpa [execMeets, h] using hok

theorem execMeets_append {step : σ → ε → Option σ} {ok : σ → ε → σ → Prop}
    [∀ s e t, Decidable (ok s e t)] {s t : σ} {es es' : List ε} (h : exec step s es = some t)
    (hok : execMeets step ok s (es ++ es') = true) :
    execMeets step ok s es = true ∧ execMeets step ok t es' = true := by
  induction es generalizing s with
  | nil =>
    obtain rfl := Option.some.inj h
    exact ⟨rfl, hok⟩
  | cons e es ih =>
    obtain ⟨v, hv, hrest⟩ := exec_cons_iff.1 h
    obtain ⟨hstep, hmeets⟩ := execMeets_cons hv hok
    obtain ⟨hes, hes'⟩ := ih hrest hmeets
    exact ⟨by simp [execMeets, hv, hstep, hes], hes'⟩

/-- **An execution is a run**, where its steps meet the condition. -/
theorem runs_of_exec {step : σ → ε → Option σ} {ok : σ → ε → σ → Prop}
    [∀ s e t, Decidable (ok s e t)] {s t : σ} {es : List ε} (h : exec step s es = some t)
    (hok : execMeets step ok s es = true) : Runs step ok s t := by
  induction es generalizing s with
  | nil =>
    simp only [exec, Option.some.injEq] at h
    exact h ▸ .refl
  | cons e es ih =>
    simp only [exec, Option.bind_eq_some_iff] at h
    obtain ⟨v, hv, hrest⟩ := h
    simp only [execMeets, hv, Bool.and_eq_true, decide_eq_true_eq] at hok
    exact .head hv hok.1 (ih hrest hok.2)

/-- Every execution is a run. -/
theorem Runs.of_exec {step : σ → ε → Option σ} {s t : σ} {es : List ε}
    (h : exec step s es = some t) : Runs step (fun _ _ _ => True) s t := by
  induction es generalizing s with
  | nil => exact Option.some.inj h ▸ .refl
  | cons e es ih =>
    obtain ⟨v, hv, hrest⟩ := exec_cons_iff.1 h
    exact .head hv trivial (ih hrest)

end Runs

/-! ## Pools -/

/-- A shared state and the program points of the threads. -/
structure Pool (σ π : Type) where
  shared : σ
  threads : List π

namespace Pool

variable {σ π κ : Type}

/-- Thread `e.1` takes its next action, with `e.2` for what the action
leaves open. -/
def step (next : σ → π → κ → Option (σ × π)) (w : Pool σ π) (e : ℕ × κ) : Option (Pool σ π) :=
  match w.threads[e.1]? with
  | none => none
  | some pc => (next w.shared pc e.2).map fun r => ⟨r.1, w.threads.set e.1 r.2⟩

/-- One thread alone, over a list of answers. -/
def solo (next : σ → π → κ → Option (σ × π)) (s : σ) (pc : π) : List κ → Option (σ × π)
  | [] => some (s, pc)
  | e :: es => (next s pc e).bind fun r => solo next r.1 r.2 es

/-- The sum of a weight over the threads. -/
def total (f : π → ℕ) (w : Pool σ π) : ℕ := (w.threads.map f).sum

variable {next : σ → π → κ → Option (σ × π)} {w w' : Pool σ π} {e : ℕ × κ}

/-- **What a step is**: one thread's action, and the thread's new program
point in its place. -/
theorem step_eq_some (h : step next w e = some w') :
    ∃ pc pc', w.threads[e.1]? = some pc ∧ next w.shared pc e.2 = some (w'.shared, pc') ∧
      w'.threads = w.threads.set e.1 pc' := by
  simp only [step] at h
  cases hpc : w.threads[e.1]? with
  | none => simp [hpc] at h
  | some pc =>
    simp only [hpc, Option.map_eq_some_iff] at h
    obtain ⟨⟨s, pc'⟩, hn, rfl⟩ := h
    exact ⟨pc, pc', rfl, hn, rfl⟩

/-- **A thread may run on alone**: its solo run is an execution of the pool. -/
theorem exec_of_solo {i : ℕ} {pc pc' : π} {s' : σ} {es : List κ} (hpc : w.threads[i]? = some pc)
    (h : solo next w.shared pc es = some (s', pc')) :
    exec (step next) w (es.map (i, ·)) = some ⟨s', w.threads.set i pc'⟩ := by
  induction es generalizing w pc with
  | nil =>
    obtain ⟨rfl, rfl⟩ := Prod.mk.inj (Option.some.inj h)
    obtain ⟨hlt, rfl⟩ := List.getElem?_eq_some_iff.1 hpc
    rw [List.set_getElem_self hlt]
    rfl
  | cons e es ih =>
    obtain ⟨⟨t, q⟩, hnext, hrest⟩ := Option.bind_eq_some_iff.1 h
    obtain ⟨hlt, -⟩ := List.getElem?_eq_some_iff.1 hpc
    have hrun := ih (w := ⟨t, w.threads.set i q⟩) (List.getElem?_set_self hlt) hrest
    rw [List.set_set] at hrun
    simp only [List.map_cons, exec, step, hpc, hnext, Option.map_some, Option.bind_some]
    exact hrun

/-- Solo runs one after the other. -/
theorem solo_append {s t u : σ} {pc pc' pc'' : π} {es es' : List κ}
    (h : solo next s pc es = some (t, pc')) (h' : solo next t pc' es' = some (u, pc'')) :
    solo next s pc (es ++ es') = some (u, pc'') := by
  induction es generalizing s pc with
  | nil =>
    obtain ⟨rfl, rfl⟩ := Prod.mk.inj (Option.some.inj h)
    exact h'
  | cons e es ih =>
    obtain ⟨r, hr, hrest⟩ := Option.bind_eq_some_iff.1 h
    exact Option.bind_eq_some_iff.2 ⟨r, hr, ih hrest⟩

/-- Replacing one entry of a list moves a sum by the difference. -/
theorem sum_map_set (f : π → ℕ) {l : List π} {i : ℕ} {a b : π} (h : l[i]? = some a) :
    ((l.set i b).map f).sum + f a = (l.map f).sum + f b := by
  induction l generalizing i with
  | nil => simp at h
  | cons x l ih =>
    cases i with
    | zero =>
      simp only [List.getElem?_cons_zero, Option.some.injEq] at h
      simp only [List.set_cons_zero, List.map_cons, List.sum_cons, h]
      omega
    | succ i =>
      have := ih (by simpa using h)
      simp only [List.set_cons_succ, List.map_cons, List.sum_cons]
      omega

/-- **A weight moves with the thread that steps.** -/
theorem total_step (f : π → ℕ) {pc pc' : π} (hpc : w.threads[e.1]? = some pc)
    (ht : w'.threads = w.threads.set e.1 pc') : w'.total f + f pc = w.total f + f pc' := by
  simp only [total, ht]
  exact sum_map_set f hpc

/-- A thread's weight is part of the sum. -/
theorem le_total (f : π → ℕ) {pc : π} (h : pc ∈ w.threads) : f pc ≤ w.total f :=
  List.single_le_sum (by simp) _ (List.mem_map_of_mem h)

/-- Two weights, one below the other: the sums differ by at least what one
thread makes of it. -/
theorem total_add_le {f g : π → ℕ} (hle : ∀ pc, f pc ≤ g pc) {pc : π} (h : pc ∈ w.threads) :
    w.total f + g pc ≤ w.total g + f pc := by
  obtain ⟨s, l⟩ := w
  simp only [total] at h ⊢
  induction l with
  | nil => cases h
  | cons q l ih =>
    simp only [List.map_cons, List.sum_cons]
    have hq := hle q
    rcases List.mem_cons.1 h with rfl | hmem
    · have hsum : (l.map f).sum ≤ (l.map g).sum := List.sum_le_sum fun pc _ => hle pc
      omega
    · have := ih hmem
      omega

/-- A sum that vanishes vanishes at every thread. -/
theorem eq_zero_of_total {f : π → ℕ} (h : w.total f = 0) {pc : π} (hpc : pc ∈ w.threads) :
    f pc = 0 := by
  have := le_total f hpc
  omega

theorem total_eq_zero {f : π → ℕ} (h : ∀ pc ∈ w.threads, f pc = 0) : w.total f = 0 := by
  refine List.sum_eq_zero fun x hx => ?_
  obtain ⟨pc, hpc, rfl⟩ := List.mem_map.1 hx
  exact h pc hpc

/-- Threads that are all at one point weigh nothing where that point does. -/
theorem total_of_forall_eq {f : π → ℕ} {p : π} (h : ∀ pc ∈ w.threads, pc = p) (hp : f p = 0) :
    w.total f = 0 :=
  total_eq_zero fun pc hpc => (congrArg f (h pc hpc)).trans hp

/-- A sum that does not vanish has a thread to show for it. -/
theorem exists_of_total_pos {f : π → ℕ} (h : 0 < w.total f) : ∃ pc ∈ w.threads, 0 < f pc := by
  obtain ⟨x, hx, hpos⟩ := List.sum_pos_iff_exists_pos_nat.1 h
  obtain ⟨pc, hpc, rfl⟩ := List.mem_map.1 hx
  exact ⟨pc, hpc, hpos⟩

/-- Two entries of a list weigh at most the sum. -/
theorem add_le_sum_map (f : π → ℕ) {l : List π} {i j : ℕ} {a b : π} (hij : i ≠ j)
    (hi : l[i]? = some a) (hj : l[j]? = some b) : f a + f b ≤ (l.map f).sum := by
  induction l generalizing i j with
  | nil => simp at hi
  | cons x l ih =>
    have hle {k : ℕ} {c : π} (hk : l[k]? = some c) : f c ≤ (l.map f).sum :=
      List.single_le_sum (by simp) _ (List.mem_map_of_mem (List.mem_of_getElem? hk))
    rw [List.map_cons, List.sum_cons]
    cases i with
    | zero =>
      cases j with
      | zero => exact absurd rfl hij
      | succ j =>
        obtain rfl : x = a := by simpa using hi
        have := hle (by simpa using hj)
        omega
    | succ i =>
      cases j with
      | zero =>
        obtain rfl : x = b := by simpa using hj
        have := hle (by simpa using hi)
        omega
      | succ j =>
        rw [List.getElem?_cons_succ] at hi hj
        have := ih (by omega) hi hj
        omega

/-- **Where one thread carries all of a weight, the others carry none.** -/
theorem eq_zero_of_other {f : π → ℕ} {i j : ℕ} {p q : π} (hle : w.total f ≤ f p) (hij : i ≠ j)
    (hi : w.threads[i]? = some p) (hj : w.threads[j]? = some q) : f q = 0 := by
  have := add_le_sum_map f hij hi hj
  simp only [total] at hle
  omega

/-- A flat map to which one entry contributes. -/
theorem flatMap_of_others {β : Type} {f : π → List β} {l : List π} {i : ℕ} {a : π}
    (h : l[i]? = some a) (hothers : ∀ j b, i ≠ j → l[j]? = some b → f b = []) :
    l.flatMap f = f a := by
  induction l generalizing i with
  | nil => cases h
  | cons x l ih =>
    cases i with
    | zero =>
      obtain rfl := Option.some.inj h
      have hnil : l.flatMap f = [] := List.flatMap_eq_nil_iff.2 fun b hb => by
        obtain ⟨j, hj⟩ := List.mem_iff_getElem?.1 hb
        exact hothers (j + 1) b (by omega) hj
      rw [List.flatMap_cons, hnil, List.append_nil]
    | succ i =>
      rw [List.flatMap_cons, hothers 0 x (by omega) rfl, List.nil_append]
      exact ih h fun j b hij hj => hothers (j + 1) b (by omega) hj

/-- Replacing an entry by one that maps alike leaves a map, -/
theorem map_set {β : Type} {f : π → β} {l : List π} {i : ℕ} {a b : π}
    (h : l[i]? = some a) (hsame : f b = f a) : (l.set i b).map f = l.map f := by
  obtain ⟨hlt, rfl⟩ := List.getElem?_eq_some_iff.1 h
  rw [List.map_set, hsame, ← List.getElem_map f (h := by simpa using hlt),
    List.set_getElem_self]

/-- and a flat map. -/
theorem flatMap_set {β : Type} {f : π → List β} {l : List π} {i : ℕ} {a b : π}
    (h : l[i]? = some a) (hsame : f b = f a) : (l.set i b).flatMap f = l.flatMap f := by
  rw [List.flatMap_def, List.flatMap_def, map_set h hsame]

/-- The threads are any one of them and the others. -/
theorem forall_of_others {P : π → Prop} {i : ℕ} {pc : π} (hpc : w.threads[i]? = some pc)
    (h : P pc) (hothers : ∀ j q, i ≠ j → w.threads[j]? = some q → P q) :
    ∀ q ∈ w.threads, P q := by
  intro q hmem
  obtain ⟨j, hj⟩ := List.mem_iff_getElem?.1 hmem
  by_cases hij : i = j
  · subst hij
    exact Option.some.inj (hpc.symm.trans hj) ▸ h
  · exact hothers j q hij hj

/-- Where the others carry nothing, one thread carries all. -/
theorem total_of_others {f : π → ℕ} {i : ℕ} {p : π} (hi : w.threads[i]? = some p)
    (hothers : ∀ j q, i ≠ j → w.threads[j]? = some q → f q = 0) : w.total f = f p := by
  obtain ⟨s, l⟩ := w
  simp only [total] at hi hothers ⊢
  induction l generalizing i with
  | nil => cases hi
  | cons x l ih =>
    rw [List.map_cons, List.sum_cons]
    cases i with
    | zero =>
      obtain rfl := Option.some.inj hi
      have hrest : (l.map f).sum = 0 := total_eq_zero (w := ⟨s, l⟩) fun q hq => by
        obtain ⟨j, hj⟩ := List.mem_iff_getElem?.1 hq
        exact hothers (j + 1) q (by omega) hj
      rw [hrest, Nat.add_zero]
    | succ i =>
      rw [hothers 0 x (by omega) rfl, Nat.zero_add]
      exact ih hi fun j q hij hj => hothers (j + 1) q (by omega) hj

/-- The threads after a step are the one that moved and the others. -/
theorem forall_threads_of_others {P : π → Prop} {pc' : π}
    (ht : w'.threads = w.threads.set e.1 pc')
    (hold : ∀ j pc, e.1 ≠ j → w.threads[j]? = some pc → P pc) (hnew : P pc') :
    ∀ pc ∈ w'.threads, P pc := by
  intro pc hmem
  obtain ⟨j, hj⟩ := List.mem_iff_getElem?.1 hmem
  rw [ht, List.getElem?_set] at hj
  split at hj
  · split at hj
    · exact Option.some.inj hj ▸ hnew
    · cases hj
  · exact hold j pc (by assumption) hj

/-- The threads after a step are the old ones and the one that moved. -/
theorem forall_threads {P : π → Prop} {pc' : π} (ht : w'.threads = w.threads.set e.1 pc')
    (hold : ∀ pc ∈ w.threads, P pc) (hnew : P pc') : ∀ pc ∈ w'.threads, P pc := by
  intro pc hmem
  rw [ht] at hmem
  rcases List.mem_or_eq_of_mem_set hmem with h | rfl
  · exact hold pc h
  · exact hnew

/-- A thread after a step for each thread before it, but for the one that
moved. -/
theorem exists_threads {P : π → Prop} {pc pc' : π} (hpc : w.threads[e.1]? = some pc)
    (ht : w'.threads = w.threads.set e.1 pc') (h : ∃ q ∈ w.threads, P q) :
    P pc ∨ ∃ q ∈ w'.threads, P q := by
  obtain ⟨q, hq, hP⟩ := h
  obtain ⟨j, hj⟩ := List.mem_iff_getElem?.1 hq
  by_cases heq : e.1 = j
  · subst heq
    exact .inl (Option.some.inj (hpc.symm.trans hj) ▸ hP)
  · exact .inr ⟨q, List.mem_of_getElem? (by rw [ht, List.getElem?_set_ne heq, hj]), hP⟩

/-- The thread that moved is among the threads after the step. -/
theorem mem_threads {pc pc' : π} (hpc : w.threads[e.1]? = some pc)
    (ht : w'.threads = w.threads.set e.1 pc') : pc' ∈ w'.threads := by
  obtain ⟨hlt, -⟩ := List.getElem?_eq_some_iff.1 hpc
  rw [ht]
  exact List.mem_set hlt pc'

end Pool
