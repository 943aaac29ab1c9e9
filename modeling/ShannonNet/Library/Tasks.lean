import ShannonNet.Library.Runs

namespace ShannonNet.Library.Tasks

open Runs

variable {ι V κ L σ : Type*}

/-- One step of every task, over a state of its own and a store that all of them share. -/
abbrev Program (κ ι V L : Type*) := κ → L → (ι → V) → Option (L × (ι → V))

def alone (next : Program κ ι V L) (c : κ) (p : L × (ι → V)) : Option (L × (ι → V)) :=
  next c p.1 p.2

/-- All tasks at once, where an act names the one that takes a step. -/
def together [DecidableEq κ] (next : Program κ ι V L) (p : (κ → L) × (ι → V)) (c : κ) :
    Option ((κ → L) × (ι → V)) :=
  (next c (p.1 c) p.2).map fun r ↦ (Function.update p.1 c r.1, r.2)

/-- A task reads and writes in its footprint only, and no two footprints meet. -/
structure Separate (next : Program κ ι V L) (foot : κ → ι → Prop) : Prop where
  writes : ∀ {c l f l' f'}, next c l f = some (l', f') → ∀ x, ¬foot c x → f' x = f x
  reads : ∀ {c l f g l' f'}, (∀ x, foot c x → f x = g x) → next c l f = some (l', f') →
    ∃ g', next c l g = some (l', g') ∧ ∀ x, foot c x → f' x = g' x
  disjoint : ∀ {c d x}, foot c x → foot d x → c = d

variable {next : Program κ ι V L} {foot : κ → ι → Prop}

theorem Separate.none_of_none (h : Separate next foot) {c : κ} {l : L} {f g : ι → V}
    (hfoot : ∀ x, foot c x → f x = g x) (hnone : next c l f = none) : next c l g = none := by
  cases hg : next c l g with
  | none => rfl
  | some r =>
    obtain ⟨f', hf', -⟩ := h.reads (fun x hx ↦ (hfoot x hx).symm) hg
    rw [hnone] at hf'
    cases hf'

variable [DecidableEq κ]

theorem together_cases {p q : (κ → L) × (ι → V)} {c : κ} (h : together next p c = some q) :
    ∃ l f, next c (p.1 c) p.2 = some (l, f) ∧ q = (Function.update p.1 c l, f) := by
  obtain ⟨⟨l, f⟩, hstep, rfl⟩ := Option.map_eq_some_iff.mp h
  exact ⟨l, f, hstep, rfl⟩

section Projection

variable {P : (κ → L) × (ι → V) → κ → Prop} {p q : (κ → L) × (ι → V)}

/-- In its footprint a task sees itself alone. -/
theorem Separate.component (h : Separate next foot) (hrun : Reachable (together next) P p q)
    (c : κ) : ∃ g, Leads (alone next c) (p.1 c, p.2) (q.1 c, g) ∧ ∀ x, foot c x → q.2 x = g x := by
  induction hrun with
  | start => exact ⟨p.2, .start, fun _ _ ↦ rfl⟩
  | @next q r d _ _ hstep ih =>
    obtain ⟨g, hrun, hg⟩ := ih
    obtain ⟨l, f, hnext, rfl⟩ := together_cases hstep
    by_cases hcd : c = d
    · subst hcd
      obtain ⟨g', hg', hfoot⟩ := h.reads hg hnext
      refine ⟨g', .next (a := ()) hrun trivial ?_, hfoot⟩
      rw [alone, hg']
      dsimp only
      rw [Function.update_self]
    · refine ⟨g, ?_, fun x hx ↦ ?_⟩
      · dsimp only
        rwa [Function.update_of_ne hcd]
      · have hout : ¬foot d x := fun hd ↦ hcd (h.disjoint hx hd)
        exact (h.writes hnext x hout).trans (hg x hx)

theorem Separate.outside (h : Separate next foot) (hrun : Reachable (together next) P p q) {x : ι}
    (hx : ∀ c, ¬foot c x) : q.2 x = p.2 x := by
  induction hrun with
  | start => rfl
  | @next q r d _ _ hstep ih =>
    obtain ⟨l, f, hnext, rfl⟩ := together_cases hstep
    exact (h.writes hnext x (hx d)).trans ih

/-- Two runs in which a task comes to its end agree on all it has done. -/
theorem Separate.ended (h : Separate next foot) {p q r : (κ → L) × (ι → V)} {c : κ}
    (hq : Reachable (together next) P p q) (hr : Reachable (together next) P p r)
    (hqend : next c (q.1 c) q.2 = none) (hrend : next c (r.1 c) r.2 = none) :
    q.1 c = r.1 c ∧ ∀ x, foot c x → q.2 x = r.2 x := by
  obtain ⟨f, hf, hqf⟩ := h.component hq c
  obtain ⟨g, hg, hrg⟩ := h.component hr c
  have heq := hf.unique hg (h.none_of_none hqf hqend) (h.none_of_none hrg hrend)
  obtain ⟨hl, rfl⟩ := Prod.mk.inj heq
  exact ⟨hl, fun x hx ↦ (hqf x hx).trans (hrg x hx).symm⟩

end Projection

theorem reachable_alone {c : κ} {l : κ → L} {f f' : ι → V} {l' : L}
    (h : Leads (alone next c) (l c, f) (l', f')) :
    Reachable (together next) (fun _ _ ↦ True) (l, f) (Function.update l c l', f') := by
  suffices hlift : ∀ q, Leads (alone next c) (l c, f) q →
      Reachable (together next) (fun _ _ ↦ True) (l, f) (Function.update l c q.1, q.2) from
    hlift _ h
  intro q hq
  induction hq with
  | start =>
    rw [Function.update_eq_self]
    exact .start
  | @next q r _ _ _ hstep ih =>
    refine .next (a := c) ih trivial ?_
    have hnext : next c q.1 q.2 = some r := hstep
    simp only [together, Function.update_self, hnext, Option.map_some, Function.update_idem]

section Sequence

/-- A task that runs alone from `start` does to the store what `body` does to the state the store
shows, and comes to one of its two ends. -/
structure Computes (next : Program κ ι V L) (start ended crashed : L) (view : σ → ι → V)
    (body : κ → σ → Option σ) : Prop where
  done : ∀ c f, next c ended f = none
  dead : ∀ c f, next c crashed f = none
  returns : ∀ {c s s'}, body c s = some s' → Leads (alone next c) (start, view s) (ended, view s')
  fails : ∀ {c s}, body c s = none → ∃ f, Leads (alone next c) (start, view s) (crashed, f)

variable {start ended crashed : L} {view : σ → ι → V} {body : κ → σ → Option σ}

/-- The tasks one after another are one of the interleavings. -/
theorem Computes.sequence (h : Computes next start ended crashed view body) {cs : List κ}
    (hcs : cs.Nodup) {l : κ → L} (hl : ∀ c ∈ cs, l c = start) (s : σ) :
    (∀ s', cs.foldlM (fun s c ↦ body c s) s = some s' →
      ∃ l', Reachable (together next) (fun _ _ ↦ True) (l, view s) (l', view s') ∧
        (∀ c ∈ cs, l' c = ended) ∧ ∀ c ∉ cs, l' c = l c) ∧
    (cs.foldlM (fun s c ↦ body c s) s = none → ∃ l' f, ∃ c ∈ cs,
      Reachable (together next) (fun _ _ ↦ True) (l, view s) (l', f) ∧ l' c = crashed) := by
  induction cs generalizing l s with
  | nil =>
    refine ⟨fun s' hs' ↦ ?_, fun hnone ↦ by cases hnone⟩
    cases hs'
    exact ⟨l, .start, by simp, fun _ _ ↦ rfl⟩
  | cons c cs ih =>
    obtain ⟨hc, hcs⟩ := List.nodup_cons.mp hcs
    have hstart : l c = start := hl c List.mem_cons_self
    cases hbody : body c s with
    | none =>
      refine ⟨fun s' hs' ↦ ?_, fun _ ↦ ?_⟩
      · simp [List.foldlM_cons, hbody] at hs'
      · obtain ⟨f, hf⟩ := h.fails hbody
        exact ⟨_, f, c, List.mem_cons_self, reachable_alone (by rwa [hstart]),
          Function.update_self _ _ _⟩
    | some s₁ =>
      have hrest (d : κ) (hd : d ∈ cs) : Function.update l c ended d = start := by
        have hne : d ≠ c := fun heq ↦ hc (heq ▸ hd)
        rw [Function.update_of_ne hne, hl d (List.mem_cons_of_mem c hd)]
      have hfirst : Reachable (together next) (fun _ _ ↦ True) (l, view s)
          (Function.update l c ended, view s₁) :=
        reachable_alone (by rw [hstart]; exact h.returns hbody)
      obtain ⟨hsome, hnone⟩ := ih hcs hrest s₁
      simp only [List.foldlM_cons, hbody, Option.bind_eq_bind, Option.bind_some]
      refine ⟨fun s' hs' ↦ ?_, fun hs' ↦ ?_⟩
      · obtain ⟨l', hrun, hended, hframe⟩ := hsome s' hs'
        refine ⟨l', hfirst.trans hrun, fun d hd ↦ ?_, fun d hd ↦ ?_⟩
        · rcases List.mem_cons.mp hd with rfl | hd
          · rw [hframe d hc, Function.update_self]
          · exact hended d hd
        · obtain ⟨hne, hd⟩ := List.ne_and_not_mem_of_not_mem_cons hd
          rw [hframe d hd, Function.update_of_ne hne]
      · obtain ⟨l', f, d, hd, hrun, hcrashed⟩ := hnone hs'
        exact ⟨l', f, d, List.mem_cons_of_mem c hd, hfirst.trans hrun, hcrashed⟩

/-- In every interleaving tasks with separate footprints compute what they compute one after
another. -/
theorem Computes.interleave (h : Computes next start ended crashed view body)
    (hsep : Separate next foot) {cs : List κ} (hcs : cs.Nodup) (hall : ∀ c, c ∈ cs) {s : σ}
    {q : (κ → L) × (ι → V)}
    (hrun : Reachable (together next) (fun _ _ ↦ True) (fun _ ↦ start, view s) q) :
    (∀ s', cs.foldlM (fun s c ↦ body c s) s = some s' →
      (∀ c, next c (q.1 c) q.2 = none → q.1 c = ended) ∧
        ((∀ c, next c (q.1 c) q.2 = none) → q.2 = view s')) ∧
    (cs.foldlM (fun s c ↦ body c s) s = none →
      ∃ c, next c (q.1 c) q.2 = none → q.1 c = crashed) := by
  obtain ⟨hsome, hnone⟩ := h.sequence hcs (fun _ _ ↦ rfl : ∀ c ∈ cs, (fun _ ↦ start) c = start) s
  refine ⟨fun s' hs' ↦ ?_, fun hs' ↦ ?_⟩
  · obtain ⟨l, hseq, hended, -⟩ := hsome s' hs'
    have hagree (c : κ) (hc : next c (q.1 c) q.2 = none) :
        q.1 c = ended ∧ ∀ x, foot c x → q.2 x = view s' x := by
      have hl : l c = ended := hended c (hall c)
      have hdone : next c (l c) (view s') = none := by
        rw [hl]
        exact h.done c _
      obtain ⟨heq, hfoot⟩ := hsep.ended hrun hseq hc hdone
      exact ⟨heq.trans hl, hfoot⟩
    refine ⟨fun c hc ↦ (hagree c hc).1, fun hend ↦ funext fun x ↦ ?_⟩
    by_cases hx : ∃ c, foot c x
    · obtain ⟨c, hx⟩ := hx
      exact (hagree c (hend c)).2 x hx
    · have hx := not_exists.mp hx
      exact (hsep.outside hrun hx).trans (hsep.outside hseq hx).symm
  · obtain ⟨l, f, c, -, hseq, hl⟩ := hnone hs'
    have hdead : next c (l c) f = none := by
      rw [hl]
      exact h.dead c f
    exact ⟨c, fun hc ↦ (hsep.ended hrun hseq hc hdead).1.trans hl⟩

end Sequence

end ShannonNet.Library.Tasks
