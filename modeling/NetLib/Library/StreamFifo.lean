import Mathlib.Data.List.Basic
import Mathlib.Tactic.Common
/-!
# Machines that answer, and the FIFO stream among them

A machine takes calls one after the other and answers each; a call it does
not allow has no answer. `answers_of_simulation` is forward simulation for
such machines. `StreamFifo` is one: a queue of at most `cap` elements,
filled and emptied in pieces of any length.
-/

variable {σ τ ε ο : Type}

/-- The state after a list of calls, and the answers. -/
def answers (step : σ → ε → Option (σ × ο)) : σ → List ε → Option (σ × List ο)
  | s, [] => some (s, [])
  | s, e :: es => do
    let (s', o) ← step s e
    let (s'', os) ← answers step s' es
    return (s'', o :: os)

theorem answers_cons {step : σ → ε → Option (σ × ο)} {s : σ} {e : ε} {es : List ε}
    {r : σ × List ο} : answers step s (e :: es) = some r ↔
      ∃ s' o os, step s e = some (s', o) ∧ answers step s' es = some (r.1, os) ∧ r.2 = o :: os := by
  obtain ⟨s'', l⟩ := r
  simp only [answers, Option.bind_eq_bind, Option.pure_def, Option.bind_eq_some_iff,
    Option.some.injEq, Prod.mk.injEq]
  constructor
  · rintro ⟨⟨s', o⟩, hst, ⟨t, os⟩, hrun, rfl, rfl⟩
    exact ⟨s', o, os, hst, hrun, rfl⟩
  · rintro ⟨s', o, os, hst, hrun, rfl⟩
    exact ⟨(s', o), hst, (s'', os), hrun, rfl, rfl⟩

/-- **Forward simulation**: a machine that matches every call another one
allows matches every list of them. -/
theorem answers_of_simulation {step : σ → ε → Option (σ × ο)} {step' : τ → ε → Option (τ × ο)}
    {R : σ → τ → Prop}
    (hsim : ∀ (s : σ) (t : τ) (e : ε) (t' : τ) (o : ο), R s t → step' t e = some (t', o) →
      ∃ s', step s e = some (s', o) ∧ R s' t')
    {s : σ} {t t' : τ} {es : List ε} {os : List ο} (hrel : R s t)
    (hrun : answers step' t es = some (t', os)) :
    ∃ s', answers step s es = some (s', os) ∧ R s' t' := by
  induction es generalizing s t os with
  | nil =>
    obtain ⟨rfl, rfl⟩ := Prod.mk.inj (Option.some.inj hrun)
    exact ⟨s, rfl, hrel⟩
  | cons e es ih =>
    obtain ⟨t₁, o, os', hst, hrest, hos⟩ := answers_cons.1 hrun
    obtain ⟨s₁, hst', hrel₁⟩ := hsim s t e t₁ o hrel hst
    obtain ⟨s', hrun', hrel'⟩ := ih hrel₁ hrest
    exact ⟨s', answers_cons.2 ⟨s₁, o, os', hst', hrun', hos⟩, hrel'⟩

namespace StreamFifo

variable {α : Type}

inductive Call (α : Type)
  | recv (data : List α)
  | peek (n : ℕ)
  | dequeue (n : ℕ)
  | clear
  deriving DecidableEq

inductive Answer (α : Type)
  | done
  | bytes (l : List α)
  | count (n : ℕ)
  deriving DecidableEq

/-- A queue takes a nonempty piece there is room for, at its end, and shows
and gives away at most what it has, from its front. -/
def step (cap : ℕ) (q : List α) : Call α → Option (List α × Answer α)
  | .recv data =>
    if 0 < data.length ∧ data.length ≤ cap - q.length then some (q ++ data, .done) else none
  | .peek n => if n ≤ q.length then some (q, .bytes (q.take n)) else none
  | .dequeue n => if n ≤ q.length then some (q.drop n, .count n) else none
  | .clear => some ([], .done)

end StreamFifo
