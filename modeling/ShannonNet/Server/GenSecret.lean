import ShannonNet.Generator.Script
import ShannonNet.Library.Runs

namespace ShannonNet.Server.GenSecret

open Library.Runs Utils Generator

structure Dto where
  nodeId : ℕ
  randomNum : ℕ
  index : Index

inductive Pc
  | generate
  | get (randomStr : Str)
  | score (randomStr : Str) (isExist : Bool)
  | set (randomStr : Str)
  | push (randomStr : Str)
  | done (res : Response (Option Dto))

/-- The string and the number a step may draw, and whether its Redis command succeeds. -/
structure Draw where
  randomStr : Str
  randomNum : ℕ
  ok : Bool

/-- One Redis command of `genSecret`, called with the node `nodeId`. -/
def Pc.step (nodeId : ℕ) (d : Draw) : Pc → World → Pc × World
  | generate, w => (get d.randomStr, w)
  | get x, w => (score x (w.slot x).lock.isSome, w)
  | score x isExist, w =>
    (if !isExist && !((w.slot x).time .server).isSome then set x else generate, w)
  | set x, w =>
    if d.ok then (push x, w.setSlot x { w.slot x with lock := some ['1'] })
    else (done ⟨500, "randomStr set error", none⟩, w)
  | push x, w =>
    if d.ok then
      (done ⟨200, "success", some ⟨serverNode, d.randomNum, x⟩⟩,
        w.lpush ⟨.server, d.randomNum, x, serverNode, nodeId⟩)
    else (done ⟨500, "json lpush error", none⟩, w)
  | done res, w => (done res, w)

structure State (ι γ : Type) where
  world : World
  request : ι → Pc
  generator : γ → Process

inductive Act (ι γ : Type)
  | request (i : ι) (nodeId : ℕ) (d : Draw)
  | generator (g : γ) (o : Outcome)
  | clientPush (randomNum : ℕ) (index : Index) (clientNodeId : ℕ)

variable {ι γ : Type}

def State.step [DecidableEq ι] [DecidableEq γ] (s : State ι γ) : Act ι γ → Option (State ι γ)
  | .request i nodeId d =>
    let r := (s.request i).step nodeId d s.world
    some { s with world := r.2, request := Function.update s.request i r.1 }
  | .generator g o =>
    let r := (s.generator g).step o s.world
    some { s with world := r.2, generator := Function.update s.generator g r.1 }
  | .clientPush randomNum index clientNodeId =>
    some { s with world := s.world.lpush ⟨.client, randomNum, index, serverNode, clientNodeId⟩ }

/-- A `set` finds the candidate neither locked nor generated, as at the two checks before it. -/
def FreshSet (s : State ι γ) : Act ι γ → Prop
  | .request i _ _ =>
    match s.request i with
    | .set x => (s.world.slot x).lock = none ∧ (s.world.slot x).time .server = none
    | _ => True
  | _ => True

def Pc.answer : Pc → Option Index
  | done res => if res.statusCode = 200 then res.data.map Dto.index else none
  | _ => none

def UniqueIndex (s : State ι γ) : Prop :=
  ∀ i j x, (s.request i).answer = some x → (s.request j).answer = some x → i = j

def Pc.Holds (x : Index) : Pc → Prop
  | push y => y = x
  | done res => (done res).answer = some x
  | _ => False

structure Initial (s : State ι γ) : Prop where
  request : ∀ i, s.request i = .generate
  generator : ∀ g, s.generator g = none

def Taken (w : World) (x : Index) : Prop :=
  (w.slot x).lock.isSome ∨ ((w.slot x).time .server).isSome

structure Invariant (s : State ι γ) : Prop where
  taken : ∀ i x, (s.request i).Holds x → Taken s.world x
  published : ∀ g msg pc, s.generator g = some (msg, pc) →
    pc.Published msg.source (s.world.slot msg.index)
  unique : ∀ i j x, (s.request i).Holds x → (s.request j).Holds x → i = j

theorem Pc.step_cases (nodeId : ℕ) (d : Draw) (pc : Pc) (w : World) :
    ((pc.step nodeId d w).2.slot = w.slot ∧
      ∀ x, (pc.step nodeId d w).1.Holds x → pc.Holds x) ∨
    ∃ x, pc = .set x ∧ pc.step nodeId d w =
      (.push x, w.setSlot x { w.slot x with lock := some ['1'] }) := by
  cases pc with
  | generate => exact .inl ⟨rfl, fun x h ↦ h⟩
  | get y => exact .inl ⟨rfl, fun x h ↦ h⟩
  | score y isExist =>
    refine .inl ⟨rfl, ?_⟩
    intro x h
    simp only [Pc.step] at h
    split_ifs at h <;> exact h
  | set y =>
    cases hok : d.ok with
    | true => exact .inr ⟨y, rfl, by simp only [Pc.step, hok, if_true]⟩
    | false =>
      left
      simp [Pc.step, hok, Pc.Holds, Pc.answer]
  | push y =>
    cases hok : d.ok with
    | true =>
      left
      simp [Pc.step, hok, Pc.Holds, Pc.answer, World.lpush]
    | false =>
      left
      simp [Pc.step, hok, Pc.Holds, Pc.answer]
  | done res => exact .inl ⟨rfl, fun x h ↦ h⟩

theorem taken_setSlot {w : World} {x y : Index} {t : Slot} (h : Taken w y)
    (ht : y = x → (w.slot x).lock.isSome ∨ ((w.slot x).time .server).isSome →
      t.lock.isSome ∨ (t.time .server).isSome) : Taken (w.setSlot x t) y := by
  by_cases hxy : y = x
  · subst hxy
    simpa [Taken, World.setSlot] using ht rfl h
  · simpa [Taken, World.setSlot, hxy] using h

theorem invariant_of_initial {s : State ι γ} (h : Initial s) : Invariant s where
  taken i x hi := by rw [h.request] at hi; exact hi.elim
  published g msg pc hg := by rw [h.generator] at hg; exact absurd hg (by simp)
  unique i j x hi := by rw [h.request] at hi; exact hi.elim

theorem invariant_request [DecidableEq ι] {s : State ι γ} (hs : Invariant s) (i : ι) (nodeId : ℕ)
    (d : Draw) (hfresh : FreshSet s (.request i nodeId d)) :
    let r := (s.request i).step nodeId d s.world
    Invariant { s with world := r.2, request := Function.update s.request i r.1 } := by
  intro r
  rcases Pc.step_cases nodeId d (s.request i) s.world with ⟨hslot, hholds⟩ | ⟨x, hpc, hr⟩
  · have holds {j : ι} {y : Index} (h : (Function.update s.request i r.1 j).Holds y) :
        (s.request j).Holds y := by
      by_cases hj : j = i
      · subst hj
        rw [Function.update_self] at h
        exact hholds y h
      · rwa [Function.update_of_ne hj] at h
    refine ⟨?_, ?_, fun j k y hj hk ↦ hs.unique j k y (holds hj) (holds hk)⟩
    · intro j y hy
      have := hs.taken j y (holds hy)
      rwa [Taken, ← hslot] at this
    · intro g msg pc hg
      have := hs.published g msg pc hg
      rwa [← hslot] at this
  · rw [FreshSet, hpc] at hfresh
    obtain ⟨hlock, htime⟩ := hfresh
    -- Nobody holds `x`: it would be locked or generated.
    have hnone (j : ι) : ¬(s.request j).Holds x := fun h ↦ by
      simpa [Taken, hlock, htime] using hs.taken j x h
    have holds {j : ι} {y : Index} (h : (Function.update s.request i r.1 j).Holds y) :
        j = i ∧ y = x ∨ (s.request j).Holds y := by
      by_cases hj : j = i
      · subst hj
        rw [Function.update_self, show r = _ from hr] at h
        exact .inl ⟨rfl, h.symm⟩
      · rw [Function.update_of_ne hj] at h
        exact .inr h
    refine ⟨?_, ?_, ?_⟩
    · intro j y hy
      rw [show r = _ from hr]
      rcases holds hy with ⟨rfl, rfl⟩ | hy
      · simp [Taken, World.setSlot]
      · exact taken_setSlot (hs.taken j y hy) fun _ _ ↦ .inl rfl
    · intro g msg pc hg
      rw [show r = _ from hr]
      apply (hs.published g msg pc hg).mono
      intro h
      by_cases hm : msg.index = x
      · subst hm
        simpa [World.setSlot] using h
      · simpa [World.setSlot, hm] using h
    · intro j k y hj hk
      rcases holds hj with ⟨rfl, rfl⟩ | hj'
      · rcases holds hk with ⟨rfl, _⟩ | hk'
        · rfl
        · exact absurd hk' (hnone k)
      · rcases holds hk with ⟨rfl, rfl⟩ | hk'
        · exact absurd hj' (hnone j)
        · exact hs.unique j k y hj' hk'

theorem invariant_generator [DecidableEq γ] {s : State ι γ} (hs : Invariant s) (g : γ)
    (o : Outcome) :
    let r := (s.generator g).step o s.world
    Invariant { s with world := r.2, generator := Function.update s.generator g r.1 } := by
  intro r
  obtain ⟨htaken, htime, hown⟩ : (∀ y, Taken s.world y → Taken r.2 y) ∧
      (∀ y src, ((s.world.slot y).time src).isSome → ((r.2.slot y).time src).isSome) ∧
      (∀ msg pc, r.1 = some (msg, pc) → pc.Published msg.source (r.2.slot msg.index)) := by
    rcases Process.step_cases o (s.generator g) s.world with hr | ⟨msg, hr⟩ | ⟨msg, pc, hg, hr⟩
    · rw [show r = _ from hr]
      exact ⟨fun y h ↦ h, fun y src h ↦ h, fun msg pc h ↦ absurd h (by simp)⟩
    · rw [show r = _ from hr]
      refine ⟨fun y h ↦ h, fun y src h ↦ h, ?_⟩
      intro msg' pc h
      cases h
      trivial
    · have hpub := hs.published g msg pc hg
      rw [show r = _ from hr]
      refine ⟨fun y hy ↦ taken_setSlot hy ?_, ?_, ?_⟩
      · intro _ h
        rcases h with h | h
        · by_cases hdel : pc = .del
          · subst hdel
            exact .inr (Pc.step_time (hpub.2 ▸ hpub.1))
          · exact .inl (by rwa [Pc.step_lock hdel])
        · exact .inr (Pc.step_time h)
      · intro y src h
        by_cases hy : y = msg.index
        · subst hy
          simpa [World.setSlot] using Pc.step_time h
        · simpa [World.setSlot, hy] using h
      · intro msg' pc' h
        cases h
        simpa [World.setSlot] using Pc.step_published hpub
  refine ⟨fun i x h ↦ htaken x (hs.taken i x h), ?_, hs.unique⟩
  intro g' msg pc hg'
  by_cases hgg : g' = g
  · subst hgg
    exact hown msg pc (by simpa using hg')
  · apply (hs.published g' msg pc (by simpa [hgg] using hg')).mono
    intro h
    exact htime _ _ h

theorem invariant_step [DecidableEq ι] [DecidableEq γ] {s t : State ι γ} {a : Act ι γ}
    (hs : Invariant s) (hfresh : FreshSet s a) (h : s.step a = some t) : Invariant t := by
  cases a with
  | request i nodeId d =>
    cases h
    exact invariant_request hs i nodeId d hfresh
  | generator g o =>
    cases h
    exact invariant_generator hs g o
  | clientPush randomNum index clientNodeId =>
    cases h
    exact ⟨hs.taken, hs.published, hs.unique⟩

theorem Pc.holds_of_answer {pc : Pc} {x : Index} (h : pc.answer = some x) : pc.Holds x := by
  cases pc with
  | done res => exact h
  | _ => exact absurd h (by simp [Pc.answer])

/-- In a run whose every `set` finds the candidate still neither locked nor generated, no two
requests answered with 200 return the same index. -/
theorem index_unique [DecidableEq ι] [DecidableEq γ] {s t : State ι γ} (hinit : Initial s)
    (hrun : Reachable State.step FreshSet s t) : UniqueIndex t := by
  have hinv : Invariant t := hrun.invariant (invariant_of_initial hinit)
    fun _ _ _ hs hfresh h ↦ invariant_step hs hfresh h
  exact fun i j x hi hj ↦ hinv.unique i j x (Pc.holds_of_answer hi) (Pc.holds_of_answer hj)

def State.start : State (Fin 2) (Fin 1) :=
  ⟨⟨fun _ ↦ Slot.empty, []⟩, fun _ ↦ .generate, fun _ ↦ none⟩

def serve (i : Fin 2) : Act (Fin 2) (Fin 1) := .request i 1 ⟨List.replicate 16 'a', 7, true⟩

theorem index_unique_alone :
    ∃ t : State (Fin 2) (Fin 1), UniqueIndex t ∧
      t.request 0 = .done ⟨200, "success", some ⟨0, 7, List.replicate 16 'a'⟩⟩ := by
  have hrun : Reachable State.step FreshSet State.start State.start := .start
  have hrun := hrun.next (a := serve 0) trivial rfl
  have hrun := hrun.next (a := serve 0) trivial rfl
  have hrun := hrun.next (a := serve 0) trivial rfl
  have hrun := hrun.next (a := serve 0) ⟨rfl, rfl⟩ rfl
  have hrun := hrun.next (a := serve 0) trivial rfl
  exact ⟨_, index_unique ⟨fun _ ↦ rfl, fun _ ↦ rfl⟩ hrun, rfl⟩

/-- Two requests of one second draw the same string, and both pass the checks before either sets
the lock. -/
theorem index_answered_twice :
    ∃ t, Reachable State.step (fun _ _ ↦ True) State.start t ∧ Initial State.start ∧
      ¬UniqueIndex t := by
  have hrun : ∃ t, exec State.step State.start
    [serve 0, serve 1, serve 0, serve 1, serve 0, serve 1,
      serve 0, serve 1, serve 0, serve 1] = some t ∧
      ∀ i, (t.request i).answer = some (List.replicate 16 'a') :=
    ⟨_, rfl, Fin.forall_fin_two.mpr ⟨rfl, rfl⟩⟩
  obtain ⟨t, ht, hanswer⟩ := hrun
  refine ⟨t, .of_exec ht, ⟨fun _ ↦ rfl, fun _ ↦ rfl⟩, ?_⟩
  intro h
  exact absurd (h 0 1 _ (hanswer 0) (hanswer 1)) (by decide)

end ShannonNet.Server.GenSecret
