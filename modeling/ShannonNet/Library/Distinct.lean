import Mathlib.Data.Nat.Init

namespace ShannonNet.Library.Distinct

variable {α : Type} [DecidableEq α] (f : ℕ → α)

/-- The different values among the first ones of a stream, in the order they come in. -/
def firsts (n : ℕ) : List α := ((List.range n).map f).eraseDups

variable {f} {m n : ℕ}

theorem firsts_zero : firsts f 0 = [] := rfl

theorem firsts_succ (f : ℕ → α) (n : ℕ) :
    firsts f (n + 1) = firsts f n ++ ([f n].removeAll ((List.range n).map f)).eraseDups := by
  rw [firsts, List.range_succ, List.map_append, List.eraseDups_append]
  rfl

theorem firsts_succ_of_mem (h : f n ∈ firsts f n) : firsts f (n + 1) = firsts f n := by
  have hmem : f n ∈ (List.range n).map f := List.mem_eraseDups.mp h
  rw [firsts_succ]
  simp only [List.removeAll, List.filter_cons, List.filter_nil, List.elem_eq_mem, hmem]
  exact List.append_nil _

theorem firsts_succ_of_not_mem (h : f n ∉ firsts f n) :
    firsts f (n + 1) = firsts f n ++ [f n] := by
  have hmem : f n ∉ (List.range n).map f := fun hmem ↦ h (List.mem_eraseDups.mpr hmem)
  rw [firsts_succ]
  simp only [List.removeAll, List.filter_cons, List.filter_nil, List.elem_eq_mem, hmem]
  rfl

theorem firsts_length_mono (h : m ≤ n) : (firsts f m).length ≤ (firsts f n).length := by
  induction n, h using Nat.le_induction with
  | base => exact Nat.le_refl _
  | succ n _ ih =>
    refine Nat.le_trans ih ?_
    rw [firsts_succ, List.length_append]
    exact Nat.le_add_right _ _

theorem firsts_length_succ_le (f : ℕ → α) (n : ℕ) :
    (firsts f (n + 1)).length ≤ (firsts f n).length + 1 := by
  by_cases h : f n ∈ firsts f n
  · rw [firsts_succ_of_mem h]
    exact Nat.le_succ _
  · rw [firsts_succ_of_not_mem h, List.length_append]
    exact Nat.le_refl _

/-- Later the list is the same, or a first value that it lacks has come. -/
theorem firsts_cases (hmn : m ≤ n) : firsts f n = firsts f m ∨
    ∃ k, m ≤ k ∧ k < n ∧ firsts f k = firsts f m ∧ f k ∉ firsts f m := by
  induction n, hmn using Nat.le_induction with
  | base => exact .inl rfl
  | succ n hmn ih =>
    rcases ih with hsame | ⟨k, hmk, hkn, hk⟩
    · by_cases hmem : f n ∈ firsts f n
      · exact .inl ((firsts_succ_of_mem hmem).trans hsame)
      · exact .inr ⟨n, hmn, Nat.lt_succ_self n, hsame, hsame ▸ hmem⟩
    · exact .inr ⟨k, hmk, Nat.lt_succ_of_lt hkn, hk⟩

end ShannonNet.Library.Distinct
