import Mathlib.Algebra.BigOperators.Group.Finset.Piecewise
import Mathlib.Algebra.Order.BigOperators.Group.Finset
import Mathlib.Data.Fintype.Basic

namespace ShannonNet.Library.Runs

variable {σ α κ : Type*}

/-- The states a partial step function reaches from `s` by acts that each meet `P` in the state
they are taken in. -/
inductive Reachable (step : σ → α → Option σ) (P : σ → α → Prop) (s : σ) : σ → Prop
  | start : Reachable step P s s
  | next {t u : σ} {a : α} :
      Reachable step P s t → P t a → step t a = some u → Reachable step P s u

variable {step : σ → α → Option σ} {P : σ → α → Prop} {s t u : σ}

theorem Reachable.invariant {I : σ → Prop} (h : Reachable step P s t) (h0 : I s)
    (hstep : ∀ t a u, I t → P t a → step t a = some u → I u) : I t := by
  induction h with
  | start => exact h0
  | next _ hP hs ih => exact hstep _ _ _ ih hP hs

theorem Reachable.trans (h : Reachable step P s t) (h' : Reachable step P t u) :
    Reachable step P s u := by
  induction h' with
  | start => exact h
  | next _ hP hs ih => exact .next ih hP hs

theorem Reachable.mono {Q : σ → α → Prop} (h : Reachable step P s t) (hPQ : ∀ s a, P s a → Q s a) :
    Reachable step Q s t := by
  induction h with
  | start => exact .start
  | next _ hP hs ih => exact .next ih (hPQ _ _ hP) hs

def exec (step : σ → α → Option σ) (s : σ) : List α → Option σ
  | [] => some s
  | a :: acts => (step s a).bind fun t ↦ exec step t acts

theorem Reachable.of_exec_mem (acts : List α) (h : exec step s acts = some t)
    (hP : ∀ a ∈ acts, ∀ s, P s a) : Reachable step P s t := by
  induction acts generalizing s with
  | nil =>
    cases h
    exact .start
  | cons a acts ih =>
    obtain ⟨s', hs', h⟩ := Option.bind_eq_some_iff.mp h
    have hrest := ih h fun b hb ↦ hP b (List.mem_cons_of_mem a hb)
    exact (Reachable.next .start (hP a List.mem_cons_self s) hs').trans hrest

theorem Reachable.of_exec {acts : List α} (h : exec step s acts = some t) :
    Reachable step (fun _ _ ↦ True) s t :=
  .of_exec_mem acts h fun _ _ _ ↦ trivial

theorem exec_append (acts acts' : List α) :
    exec step s (acts ++ acts') = (exec step s acts).bind fun t ↦ exec step t acts' := by
  induction acts generalizing s with
  | nil => rfl
  | cons a acts ih =>
    rw [List.cons_append, exec, exec, Option.bind_assoc]
    exact Option.bind_congr fun t _ ↦ ih

theorem Reachable.exists_exec (h : Reachable step P s t) : ∃ acts, exec step s acts = some t := by
  induction h with
  | start => exact ⟨[], rfl⟩
  | @next t u a _ _ hs ih =>
    obtain ⟨acts, hacts⟩ := ih
    refine ⟨acts ++ [a], ?_⟩
    rw [exec_append, hacts, Option.bind_some, exec, hs]
    rfl

/-- Two systems whose single acts succeed together and keep a relation run together. -/
theorem exec_rel {τ : Type*} {step' : τ → α → Option τ} {R : σ → τ → Prop} {acts : List α} {t : τ}
    (hstep : ∀ a ∈ acts, ∀ s t, R s t → Option.Rel R (step s a) (step' t a)) (h : R s t) :
    Option.Rel R (exec step s acts) (exec step' t acts) := by
  induction acts generalizing s t with
  | nil => exact .some h
  | cons a acts ih =>
    have hrel := hstep a List.mem_cons_self s t h
    rw [exec, exec]
    generalize step s a = u at hrel
    generalize step' t a = u' at hrel
    cases hrel with
    | none => exact .none
    | some hu => exact ih (fun b hb ↦ hstep b (List.mem_cons_of_mem a hb)) hu

theorem Reachable.exists_step {Q : σ → Prop} (h : Reachable step P s t) (hs : ¬Q s) (ht : Q t) :
    ∃ u a v, Reachable step P s u ∧ P u a ∧ step u a = some v ∧ ¬Q u ∧ Q v := by
  induction h with
  | start => exact absurd ht hs
  | @next t u a hrun hP hstep ih =>
    by_cases hQ : Q t
    · exact ih hQ
    · exact ⟨t, a, u, hrun, hP, hstep, hQ, ht⟩

/-- The runs of a step without acts. -/
def Leads (next : σ → Option σ) : σ → σ → Prop :=
  Reachable (fun s (_ : Unit) ↦ next s) fun _ _ ↦ True

theorem Leads.refl {next : σ → Option σ} (s : σ) : Leads next s s := .start

theorem Leads.head {next : σ → Option σ} (h : next s = some t) (h' : Leads next t u) :
    Leads next s u :=
  (Reachable.next (a := ()) .start trivial h).trans h'

theorem Leads.cases_head {next : σ → Option σ} (h : Leads next s t) :
    t = s ∨ ∃ u, next s = some u ∧ Leads next u t := by
  induction h with
  | start => exact .inl rfl
  | next _ _ hs ih =>
    rcases ih with rfl | ⟨u, hu, hrun⟩
    · exact .inr ⟨_, hs, .start⟩
    · exact .inr ⟨u, hu, .next (a := ()) hrun trivial hs⟩

theorem Leads.total {next : σ → Option σ} (h : Leads next s t) (h' : Leads next s u) :
    Leads next t u ∨ Leads next u t := by
  induction h with
  | start => exact .inl h'
  | next _ _ hs ih =>
    rcases ih with hrun | hrun
    · rcases hrun.cases_head with rfl | ⟨v, hv, hrun⟩
      · exact .inr (.next (a := ()) .start trivial hs)
      · rw [hs] at hv
        cases hv
        exact .inl hrun
    · exact .inr (.next (a := ()) hrun trivial hs)

/-- A run without acts has one end. -/
theorem Leads.unique {next : σ → Option σ} (h : Leads next s t) (h' : Leads next s u)
    (ht : next t = none) (hu : next u = none) : t = u := by
  rcases h.total h' with hrun | hrun
  · rcases hrun.cases_head with rfl | ⟨v, hv, -⟩
    · rfl
    · rw [ht] at hv
      cases hv
  · rcases hrun.cases_head with rfl | ⟨v, hv, -⟩
    · rfl
    · rw [hu] at hv
      cases hv

section Measure

variable {I : σ → Prop} {μ : σ → ℕ}
  (hμ : ∀ s a t, I s → step s a = some t → I t ∧ P s a ∧ μ t < μ s)

include hμ

/-- A measure that every step lowers bounds the length of all runs. -/
theorem exec_length_le {acts : List α} (hs : I s) (h : exec step s acts = some t) :
    acts.length ≤ μ s := by
  induction acts generalizing s with
  | nil => exact Nat.zero_le _
  | cons a acts ih =>
    obtain ⟨s', hs', h⟩ := Option.bind_eq_some_iff.mp h
    obtain ⟨hI, -, hlt⟩ := hμ s a s' hs hs'
    have hle := ih hI h
    rw [List.length_cons]
    omega

theorem exists_stuck (s : σ) (hs : I s) : ∃ t, Reachable step P s t ∧ ∀ a, step t a = none := by
  induction hn : μ s using Nat.strongRecOn generalizing s with
  | ind n ih =>
    by_cases hstuck : ∀ a, step s a = none
    · exact ⟨s, .start, hstuck⟩
    · obtain ⟨a, ha⟩ := not_forall.mp hstuck
      obtain ⟨s', hs'⟩ := Option.ne_none_iff_exists'.mp ha
      obtain ⟨hI, hP, hlt⟩ := hμ s a s' hs hs'
      obtain ⟨t, ht, hstuck⟩ := ih (μ s') (hn ▸ hlt) s' hI rfl
      exact ⟨t, (Reachable.next .start hP hs').trans ht, hstuck⟩

omit hμ in
theorem sum_update_add {β : Type*} [Fintype κ] [DecidableEq κ] (rank : β → ℕ) (f : κ → β) (k : κ)
    (b : β) : ∑ j, rank (Function.update f k b j) + rank (f k) = ∑ j, rank (f j) + rank b := by
  have hcomp (j : κ) : rank (Function.update f k b j) = Function.update (rank ∘ f) k (rank b) j :=
    congrFun (Function.comp_update rank f k b) j
  have hold := Finset.sum_eq_add_sum_sdiff_singleton_of_mem (Finset.mem_univ k) (rank ∘ f)
  simp only [hcomp, Finset.sum_update_of_mem (Finset.mem_univ k)]
  simp only [Function.comp_apply] at hold ⊢
  omega

omit hμ in
theorem sum_update_lt {β : Type*} [Fintype κ] [DecidableEq κ] (rank : β → ℕ) (f : κ → β) {k : κ}
    {b : β}
    (h : rank b < rank (f k)) : ∑ j, rank (Function.update f k b j) < ∑ j, rank (f j) := by
  refine Finset.sum_lt_sum ?_ ⟨k, Finset.mem_univ k, by rwa [Function.update_self]⟩
  intro j _
  by_cases hj : j = k
  · subst hj
    rw [Function.update_self]
    exact h.le
  · rw [Function.update_of_ne hj]

end Measure

section Product

variable [DecidableEq κ] {step : κ → σ → α → Option σ} {P : σ → α → Prop}

/-- Independent systems side by side, where an act names the one it moves. -/
def product (step : κ → σ → α → Option σ) (s : κ → σ) (a : κ × α) : Option (κ → σ) :=
  (step a.1 (s a.1) a.2).map (Function.update s a.1)

theorem Reachable.component {s t : κ → σ}
    (h : Reachable (product step) (fun s a ↦ P (s a.1) a.2) s t) (k : κ) :
    Reachable (step k) P (s k) (t k) := by
  induction h with
  | start => exact .start
  | @next t u a _ hP hs ih =>
    obtain ⟨v, hv, rfl⟩ := Option.map_eq_some_iff.mp hs
    by_cases hk : k = a.1
    · subst hk
      rw [Function.update_self]
      exact .next ih hP hv
    · rwa [Function.update_of_ne hk]

theorem Reachable.of_component {s : κ → σ} {k : κ} {v : σ} (h : Reachable (step k) P (s k) v) :
    Reachable (product step) (fun s a ↦ P (s a.1) a.2) s (Function.update s k v) := by
  induction h with
  | start =>
    rw [Function.update_eq_self]
    exact .start
  | @next v w a _ hP hs ih =>
    refine .next (a := (k, a)) ih (by rwa [Function.update_self]) ?_
    rw [product, Function.update_self, hs, Option.map_some, Function.update_idem]

end Product

end ShannonNet.Library.Runs
