import Mathlib.Algebra.Order.Ring.Int
import Mathlib.Data.List.Basic
/-!
# Rankings

A list in descending order of a rank, with ties in any order, as a sort leaves
it that need not be stable. The first element that passes a test has the
highest rank of those that pass.
-/

/-- `ranked` is `l` in descending order of `rank`. -/
structure Ranking {α : Type*} (rank : α → ℤ) (l ranked : List α) : Prop where
  perm : ranked.Perm l
  ordered : ranked.Pairwise fun a b => rank b ≤ rank a

namespace Ranking

variable {α : Type*} {rank : α → ℤ} {l ranked : List α} {p : α → Bool} {a e : α}

theorem mem_of_find (h : Ranking rank l ranked) (hfind : ranked.find? p = some a) :
    a ∈ l ∧ p a = true :=
  ⟨h.perm.mem_iff.1 (List.mem_of_find?_eq_some hfind), List.find?_some hfind⟩

/-- **What is found first has the highest rank.** -/
theorem rank_le (h : Ranking rank l ranked) (hfind : ranked.find? p = some a) (he : e ∈ l)
    (hp : p e = true) : rank e ≤ rank a := by
  obtain ⟨-, pre, post, rfl, hpre⟩ := List.find?_eq_some_iff_append.1 hfind
  have hmem : e ∈ pre ++ a :: post := h.perm.mem_iff.2 he
  rcases List.mem_append.1 hmem with hin | hin
  · have := hpre e hin
    simp [hp] at this
  · rcases List.mem_cons.1 hin with rfl | hin
    · exact le_rfl
    · exact (List.pairwise_cons.1 (List.pairwise_append.1 h.ordered).2.1).1 e hin

theorem not_of_find_none (h : Ranking rank l ranked) (hfind : ranked.find? p = none)
    (he : e ∈ l) : p e = false := by
  simpa using List.find?_eq_none.1 hfind e (h.perm.mem_iff.2 he)

variable (rank l) in
theorem ranking_mergeSort : Ranking rank l (l.mergeSort fun a b => rank b ≤ rank a) := by
  refine ⟨List.mergeSort_perm l _, ?_⟩
  refine (List.pairwise_mergeSort (fun a b c hab hbc => ?_) (fun a b => ?_) l).imp fun h => ?_
  · simp only [decide_eq_true_eq] at hab hbc ⊢
    exact hbc.trans hab
  · simp only [Bool.or_eq_true, decide_eq_true_eq]
    exact le_total (rank b) (rank a)
  · simpa using h

variable (rank l) in
theorem exists_ranking : ∃ ranked, Ranking rank l ranked := ⟨_, ranking_mergeSort rank l⟩

variable (rank) in
/-- **Any element may come first among its ties.** -/
theorem exists_first (he : e ∈ l) : ∃ ranked, Ranking rank l ranked ∧
    ∀ p : α → Bool, p e = true → ∃ a, ranked.find? p = some a ∧ (a = e ∨ rank e < rank a) := by
  obtain ⟨s, t, rfl⟩ := List.append_of_mem he
  let above : α → Bool := fun a => rank e < rank a
  obtain ⟨high, hhigh⟩ := exists_ranking rank ((s ++ t).filter above)
  obtain ⟨low, hlow⟩ := exists_ranking rank ((s ++ t).filter fun a => !above a)
  have habove {a : α} (ha : a ∈ high) : rank e < rank a := by
    simpa [above] using (List.mem_filter.1 (hhigh.perm.mem_iff.1 ha)).2
  have hbelow {a : α} (ha : a ∈ low) : rank a ≤ rank e := by
    simpa [above] using (List.mem_filter.1 (hlow.perm.mem_iff.1 ha)).2
  refine ⟨high ++ e :: low, ⟨?_, ?_⟩, fun p hp => ?_⟩
  · have hsplit : (high ++ low).Perm (s ++ t) :=
      (hhigh.perm.append hlow.perm).trans (List.filter_append_perm above (s ++ t))
    exact List.perm_middle.trans ((hsplit.cons e).trans List.perm_middle.symm)
  · refine List.pairwise_append.2 ⟨hhigh.ordered,
      List.pairwise_cons.2 ⟨fun a ha => hbelow ha, hlow.ordered⟩, fun a ha b hb => ?_⟩
    rcases List.mem_cons.1 hb with rfl | hb
    · exact (habove ha).le
    · exact (hbelow hb).trans (habove ha).le
  · rw [List.find?_append, List.find?_cons_of_pos hp]
    cases hfind : high.find? p with
    | none => exact ⟨e, rfl, .inl rfl⟩
    | some a => exact ⟨a, rfl, .inr (habove (List.mem_of_find?_eq_some hfind))⟩

end Ranking
