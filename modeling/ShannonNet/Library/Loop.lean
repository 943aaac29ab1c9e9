import Mathlib.Data.List.Range

namespace ShannonNet.Library.Loop

variable {α β σ : Type}

/-- The rule of the counting loop whose body can fail: an invariant that the body establishes at
the next index holds at the end, and the loop does not fail. -/
theorem foldlM_range {f : σ → ℕ → Option σ} (P : ℕ → σ → Prop) {n : ℕ} {s : σ} (h0 : P 0 s)
    (hstep : ∀ i s, i < n → P i s → ∃ s', f s i = some s' ∧ P (i + 1) s') :
    ∃ s', (List.range n).foldlM f s = some s' ∧ P n s' := by
  induction n with
  | zero => exact ⟨s, rfl, h0⟩
  | succ n ih =>
    obtain ⟨s₁, hs₁, hP₁⟩ := ih fun i t hi hP ↦ hstep i t (by omega) hP
    obtain ⟨s₂, hs₂, hP₂⟩ := hstep n s₁ (by omega) hP₁
    refine ⟨s₂, ?_, hP₂⟩
    rw [List.range_succ, List.foldlM_append, hs₁]
    simp [hs₂]

theorem foldlM_range_succ (f : σ → ℕ → Option σ) (n : ℕ) (s : σ) :
    (List.range (n + 1)).foldlM f s = ((List.range n).foldlM f s).bind (f · n) := by
  rw [List.range_succ, List.foldlM_append]
  cases (List.range n).foldlM f s with
  | none => rfl
  | some s' => exact bind_pure (f s' n)

theorem foldlM_range_of_some {f : σ → ℕ → Option σ} (P : ℕ → σ → Prop) {n : ℕ} {s s' : σ}
    (h0 : P 0 s) (hstep : ∀ i s s', i < n → P i s → f s i = some s' → P (i + 1) s')
    (h : (List.range n).foldlM f s = some s') : P n s' := by
  induction n generalizing s' with
  | zero =>
    cases h
    exact h0
  | succ n ih =>
    rw [foldlM_range_succ] at h
    obtain ⟨t, ht, h⟩ := Option.bind_eq_some_iff.mp h
    have hprefix := ih (fun i s s' hi ↦ hstep i s s' (by omega)) ht
    exact hstep n t s' (by omega) hprefix h

/-- A loop whose body fails at one index in every state the invariant allows there fails. -/
theorem foldlM_range_none {f : σ → ℕ → Option σ} (P : ℕ → σ → Prop) {n k : ℕ} {s : σ} (h0 : P 0 s)
    (hstep : ∀ i s s', i < n → P i s → f s i = some s' → P (i + 1) s') (hk : k < n)
    (hnone : ∀ s, P k s → f s k = none) : (List.range n).foldlM f s = none := by
  induction n with
  | zero => exact absurd hk (Nat.not_lt_zero k)
  | succ n ih =>
    have hstep' := fun i s s' (hi : i < n) ↦ hstep i s s' (by omega)
    rw [foldlM_range_succ]
    by_cases hlast : k = n
    · subst hlast
      apply Option.bind_eq_none_iff.mpr
      intro s' hs'
      exact hnone s' (foldlM_range_of_some P h0 hstep' hs')
    · rw [ih hstep' (by omega)]
      rfl

theorem foldlM_none {f : σ → α → Option σ} {l : List α} {a : α} (ha : a ∈ l)
    (h : ∀ s, f s a = none) (s : σ) : l.foldlM f s = none := by
  induction l generalizing s with
  | nil => cases ha
  | cons b l ih =>
    rw [List.foldlM_cons]
    rcases List.mem_cons.mp ha with rfl | ha
    · rw [h s]
      rfl
    · exact Option.bind_eq_none_iff.mpr fun s' _ ↦ ih ha s'

/-- A loop whose body fails or not whatever the state is. -/
theorem foldlM_isSome_iff {f : σ → α → Option σ} {P : α → Prop} (h : ∀ s a, (f s a).isSome ↔ P a)
    (l : List α) (s : σ) : (l.foldlM f s).isSome ↔ ∀ a ∈ l, P a := by
  induction l generalizing s with
  | nil => simp
  | cons b l ih =>
    rw [List.foldlM_cons, List.forall_mem_cons, ← h s b]
    cases f s b with
    | none => simp
    | some s' => simpa using ih s'

theorem mapM_isSome_iff {f : α → Option β} {l : List α} :
    (l.mapM f).isSome ↔ ∀ a ∈ l, (f a).isSome := by
  induction l with
  | nil => simp
  | cons b l ih =>
    rw [List.mapM_cons, List.forall_mem_cons, ← ih]
    cases f b with
    | none => simp
    | some y => cases l.mapM f <;> simp

theorem mapM_some {f : α → Option β} {g : α → β} {l : List α} (h : ∀ a ∈ l, f a = some (g a)) :
    l.mapM f = some (l.map g) := by
  induction l with
  | nil => rfl
  | cons a l ih =>
    rw [List.mapM_cons, h a (by simp), ih fun b hb ↦ h b (by simp [hb])]
    rfl

theorem mapM_length {f : α → Option β} {l : List α} {r : List β} (h : l.mapM f = some r) :
    r.length = l.length := by
  induction l generalizing r with
  | nil =>
    cases h
    rfl
  | cons a l ih =>
    rw [List.mapM_cons] at h
    obtain ⟨b, -, h⟩ := Option.bind_eq_some_iff.mp h
    obtain ⟨r', hr', h⟩ := Option.bind_eq_some_iff.mp h
    cases h
    rw [List.length_cons, List.length_cons, ih hr']

theorem filterMap_some {f : α → Option β} {g : α → β} {l : List α} (h : ∀ a ∈ l, f a = some (g a)) :
    l.filterMap f = l.map g := by
  rw [← List.filterMap_eq_map', List.filterMap_congr h]

end ShannonNet.Library.Loop
