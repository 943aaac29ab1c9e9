import Mathlib.Logic.Function.Basic

namespace ShannonNet.Library

variable {ι κ : Type}

/-- A scan over elements that come and go meanwhile. -/
structure Scan (ι : Type) where
  visited : List ι
  accepted : List ι
  finished : Bool

namespace Scan

def start : Scan ι := ⟨[], [], false⟩

def visit (r : Scan ι) (x : ι) (sees : Bool) : Scan ι :=
  ⟨x :: r.visited, if sees then r.accepted ++ [x] else r.accepted, r.finished⟩

def finish (r : Scan ι) : Scan ι := { r with finished := true }

/-- What the scan has not visited when it finishes is passed over. -/
def Decided (r : Scan ι) (x : ι) : Prop := r.finished = true ∨ x ∈ r.visited

theorem visit_decided {r : Scan ι} {x y : ι} {sees : Bool} :
    (r.visit x sees).Decided y ↔ y = x ∨ r.Decided y := by
  simp only [visit, Decided, List.mem_cons, or_left_comm]

theorem mem_visit {r : Scan ι} {x y : ι} {sees : Bool} :
    y ∈ (r.visit x sees).accepted ↔ y ∈ r.accepted ∨ y = x ∧ sees = true := by
  cases sees <;> simp [visit]

def visitAll (sees : ι → Bool) (l : List ι) (r : Scan ι) : Scan ι :=
  l.foldl (fun r x ↦ r.visit x (sees x)) r

theorem visitAll_finished {sees : ι → Bool} {l : List ι} {r : Scan ι} :
    (visitAll sees l r).finished = r.finished := by
  induction l generalizing r with
  | nil => rfl
  | cons x l ih => exact ih

theorem mem_visitAll_visited {sees : ι → Bool} {l : List ι} {r : Scan ι} {y : ι} :
    y ∈ (visitAll sees l r).visited ↔ y ∈ l ∨ y ∈ r.visited := by
  induction l generalizing r with
  | nil => simp [visitAll]
  | cons x l ih =>
    change y ∈ (visitAll sees l (r.visit x (sees x))).visited ↔ _
    rw [ih, visit, List.mem_cons, List.mem_cons, or_left_comm, or_assoc]

theorem mem_visitAll {sees : ι → Bool} {l : List ι} {r : Scan ι} {y : ι} :
    y ∈ (visitAll sees l r).accepted ↔ y ∈ l ∧ sees y = true ∨ y ∈ r.accepted := by
  induction l generalizing r with
  | nil => simp [visitAll]
  | cons x l ih =>
    change y ∈ (visitAll sees l (r.visit x (sees x))).accepted ↔ _
    rw [ih, mem_visit, List.mem_cons]
    constructor
    · rintro (⟨hmem, hsees⟩ | hmem | ⟨rfl, hsees⟩)
      · exact .inl ⟨.inr hmem, hsees⟩
      · exact .inr hmem
      · exact .inl ⟨.inl rfl, hsees⟩
    · rintro (⟨rfl | hmem, hsees⟩ | hmem)
      · exact .inr (.inr ⟨rfl, hsees⟩)
      · exact .inl ⟨hmem, hsees⟩
      · exact .inr (.inl hmem)

theorem visitAll_accepted {sees : ι → Bool} {l : List ι} {r : Scan ι} :
    (visitAll sees l r).accepted = r.accepted ++ l.filter sees := by
  induction l generalizing r with
  | nil => simp [visitAll]
  | cons x l ih =>
    change (visitAll sees l (r.visit x (sees x))).accepted = _
    rw [ih, visit, List.filter_cons]
    cases sees x <;> simp

/-- What one step of a scan does that sees the elements as `sees` does. -/
structure Step (sees : ι → Bool) (r r' : Scan ι) : Prop where
  mono : ∀ x, r.Decided x → r'.Decided x
  old : ∀ x, r.Decided x → (x ∈ r'.accepted ↔ x ∈ r.accepted)
  new : ∀ x, ¬r.Decided x → r'.Decided x → (x ∈ r'.accepted ↔ sees x = true)
  undecided : ∀ x, ¬r'.Decided x → x ∉ r'.accepted

variable {sees : ι → Bool} {r : Scan ι}

theorem step_visit (hr : ∀ y, ¬r.Decided y → y ∉ r.accepted) {x : ι} (hx : ¬r.Decided x) :
    Step sees r (r.visit x (sees x)) := by
  refine ⟨fun y hy ↦ visit_decided.mpr (.inr hy), ?_, ?_, ?_⟩
  · intro y hy
    rw [mem_visit]
    constructor
    · rintro (hmem | ⟨rfl, -⟩)
      · exact hmem
      · exact absurd hy hx
    · exact .inl
  · intro y hy hvisited
    obtain rfl := (visit_decided.mp hvisited).resolve_right hy
    rw [mem_visit]
    simp [hr y hy]
  · intro y hy hmem
    rw [visit_decided, not_or] at hy
    rcases mem_visit.mp hmem with hmem | ⟨heq, -⟩
    · exact hr y hy.2 hmem
    · exact hy.1 heq

/-- A scan finishes when everything left is out of sight. -/
theorem step_finish (hr : ∀ y, ¬r.Decided y → y ∉ r.accepted)
    (hrest : ∀ y, ¬r.Decided y → sees y = false) : Step sees r r.finish := by
  refine ⟨fun y _ ↦ .inl rfl, fun y _ ↦ Iff.rfl, ?_, fun y hy ↦ absurd (.inl rfl) hy⟩
  intro y hy _
  exact iff_of_false (hr y hy) (by simp [hrest y hy])

end Scan

/-- Scans of the same elements through different views: those that have decided an element agree,
and those that have not would decide it alike. -/
structure Coherent (view : κ → ι → Bool) (scan : κ → Scan ι) : Prop where
  undecided : ∀ k x, ¬(scan k).Decided x → x ∉ (scan k).accepted
  agree : ∀ k l x, (scan k).Decided x → (scan l).Decided x →
    (x ∈ (scan k).accepted ↔ x ∈ (scan l).accepted)
  current : ∀ k l x, (scan k).Decided x → ¬(scan l).Decided x →
    (x ∈ (scan k).accepted ↔ view l x = true)

namespace Coherent

variable {view : κ → ι → Bool} {scan : κ → Scan ι}

theorem start : Coherent view fun _ : κ ↦ (Scan.start : Scan ι) := by
  have hnot (x : ι) : ¬(Scan.start : Scan ι).Decided x := by simp [Scan.start, Scan.Decided]
  exact ⟨fun _ _ _ ↦ List.not_mem_nil, fun _ _ x hx ↦ absurd hx (hnot x),
    fun _ _ x hx ↦ absurd hx (hnot x)⟩

/-- A view changes on an element only for scans that have decided it, or while none has. -/
theorem of_view {view' : κ → ι → Bool} (h : Coherent view scan)
    (hchange : ∀ k x, view' k x ≠ view k x →
      (scan k).Decided x ∨ ∀ l, ¬(scan l).Decided x) : Coherent view' scan := by
  refine ⟨h.undecided, h.agree, ?_⟩
  intro k l x hk hl
  rw [h.current k l x hk hl]
  by_cases heq : view' l x = view l x
  · rw [heq]
  · rcases hchange l x heq with hdecided | hnone
    · exact absurd hdecided hl
    · exact absurd hk (hnone k)

theorem eq_of_finished (h : Coherent view scan) {k l : κ} (hk : (scan k).finished = true)
    (hl : (scan l).finished = true) (x : ι) : x ∈ (scan k).accepted ↔ x ∈ (scan l).accepted :=
  h.agree k l x (.inl hk) (.inl hl)

variable [DecidableEq κ]

/-- One scan decides elements, on which its view and those of the scans behind it agree. -/
theorem step {l : κ} {r : Scan ι} (h : Coherent view scan)
    (hstep : Scan.Step (view l) (scan l) r)
    (hview : ∀ k x, ¬(scan l).Decided x → r.Decided x → ¬(scan k).Decided x →
      view l x = view k x) :
    Coherent view (Function.update scan l r) := by
  have hagree (k : κ) (x : ι) (hk : (scan k).Decided x) (hr : r.Decided x) :
      x ∈ (scan k).accepted ↔ x ∈ r.accepted := by
    by_cases hl : (scan l).Decided x
    · rw [hstep.old x hl, h.agree k l x hk hl]
    · rw [hstep.new x hl hr, h.current k l x hk hl]
  refine ⟨?_, ?_, ?_⟩
  · intro k x
    by_cases hk : k = l
    · subst hk
      rw [Function.update_self]
      exact hstep.undecided x
    · rw [Function.update_of_ne hk]
      exact h.undecided k x
  · intro k k' x
    by_cases hk : k = l
    · by_cases hk' : k' = l
      · rw [hk, hk']
        exact fun _ _ ↦ Iff.rfl
      · rw [hk, Function.update_self, Function.update_of_ne hk']
        exact fun hr hk ↦ (hagree k' x hk hr).symm
    · by_cases hk' : k' = l
      · rw [hk', Function.update_self, Function.update_of_ne hk]
        exact hagree k x
      · rw [Function.update_of_ne hk, Function.update_of_ne hk']
        exact h.agree k k' x
  · intro k k' x
    by_cases hk' : k' = l
    · by_cases hk : k = l
      · rw [hk, hk']
        exact fun hr hnot ↦ absurd hr hnot
      · rw [hk', Function.update_self, Function.update_of_ne hk]
        exact fun hk hr ↦ h.current k l x hk fun hl ↦ hr (hstep.mono x hl)
    · by_cases hk : k = l
      · rw [hk, Function.update_self, Function.update_of_ne hk']
        intro hr hk'
        by_cases hl : (scan l).Decided x
        · rw [hstep.old x hl, h.current l k' x hl hk']
        · rw [hstep.new x hl hr, hview k' x hl hr hk']
      · rw [Function.update_of_ne hk, Function.update_of_ne hk']
        exact h.current k k' x

end Coherent

end ShannonNet.Library
