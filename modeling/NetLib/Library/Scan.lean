import Mathlib.Algebra.Order.Group.Nat
import Mathlib.Tactic.Common
/-!
# Scanning

The loop that moves an index forward until a condition holds or a bound is
reached.
-/

namespace Scan

/-- The loop, over at most `n` indices. -/
def scanFor (stop : ℕ → Bool) : ℕ → ℕ → ℕ
  | 0, i => i
  | n + 1, i => if stop i then i else scanFor stop n (i + 1)

/-- The first index from `i` on at which `stop` holds, or `size`. -/
def scan (size : ℕ) (stop : ℕ → Bool) (i : ℕ) : ℕ := scanFor stop (size - i) i

variable {size i e : ℕ} {stop : ℕ → Bool}

theorem scan_of_stop (h : stop i = true) : scan size stop i = i := by
  rw [scan]
  cases size - i with
  | zero => rfl
  | succ n => rw [scanFor, if_pos h]

theorem scan_of_size_le (h : size ≤ i) : scan size stop i = i := by
  rw [scan, Nat.sub_eq_zero_of_le h]
  rfl

theorem scan_succ (hi : i < size) (h : stop i = false) :
    scan size stop i = scan size stop (i + 1) := by
  obtain ⟨n, hn⟩ : ∃ n, size - i = n + 1 := ⟨size - i - 1, by omega⟩
  rw [scan, hn, scanFor, if_neg (by rw [h]; exact Bool.false_ne_true), scan]
  congr 1
  omega

/-- A scan passes nothing that it stops at. -/
theorem not_stop_of_lt {j : ℕ} (hle : i ≤ j) (hlt : j < scan size stop i) : stop j = false := by
  rw [scan] at hlt
  generalize size - i = n at hlt
  induction n generalizing i with
  | zero => exact absurd hlt (Nat.not_lt.2 hle)
  | succ n ih =>
    rw [scanFor] at hlt
    cases hstop : stop i with
    | true =>
      rw [if_pos hstop] at hlt
      exact absurd hlt (Nat.not_lt.2 hle)
    | false =>
      rw [if_neg (by rw [hstop]; exact Bool.false_ne_true)] at hlt
      rcases hle.eq_or_lt with rfl | hlt'
      · exact hstop
      · exact ih hlt' hlt

/-- **Where a scan ends.** -/
theorem scan_eq (hle : i ≤ e) (hsize : e ≤ size) (hpass : ∀ j, i ≤ j → j < e → stop j = false)
    (hstop : e < size → stop e = true) : scan size stop i = e := by
  obtain ⟨d, rfl⟩ := Nat.exists_eq_add_of_le hle
  induction d generalizing i with
  | zero =>
    rcases hsize.lt_or_eq with hlt | heq
    · exact scan_of_stop (hstop hlt)
    · exact scan_of_size_le heq.ge
  | succ d ih =>
    rw [scan_succ (by omega) (hpass i le_rfl (by omega)), ih (by omega) (by omega)
      (fun j hj hj' => hpass j (by omega) (by omega)) fun hlt => ?_]
    · omega
    · have := hstop (by omega)
      rwa [show i + 1 + d = i + (d + 1) by omega]

end Scan
