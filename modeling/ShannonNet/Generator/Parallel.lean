import ShannonNet.Generator.RunningKey
import ShannonNet.Generator.Tasks
import ShannonNet.Utils.PoolTermination
import Mathlib.Tactic.Ring

namespace ShannonNet.Generator.Parallel

open Library.Bitset Library.Buffer Library.Runs Library.Tasks Utils Tasks

section Model

variable (cfg : Config) (opens : Opens) (secrets : List (Option Bytes))
  (randomVec : List (List ℕ)) (capacity : ℕ)

/-- The pool, with the place of every task in its own function and the directory they share. -/
structure State where
  pool : ThreadPool.State (Task secrets.length cfg.threadNum) capacity
  place : Task secrets.length cfg.threadNum → Local
  dir : Dir

/-- `run i` is a step of the task that worker `i` has taken. -/
inductive Act
  | pool (a : ThreadPool.Act (Task secrets.length cfg.threadNum) capacity)
  | run (i : Fin capacity)

def init (d : RunDir) : State cfg secrets capacity :=
  ⟨ThreadPool.init _ _, fun _ ↦ .start, read d⟩

variable {cfg secrets capacity}

/-- A worker is done with its task when the function returns. The calls for the second stage wait
for the futures of the first. The pool outlives the iteration. -/
def State.allows (s : State cfg secrets capacity) :
    ThreadPool.Act (Task secrets.length cfg.threadNum) capacity → Bool
  | .worker i =>
    match s.pool.worker i with
    | .run task => s.place task = .ended
    | _ => true
  | .call (.bin t) =>
    decide (s.pool.call (.bin t) = .start → ∀ f t, Task.tmp f t ∈ s.pool.ran)
  | .stop | .notifyAll | .join => false
  | _ => true

/-- An access out of range ends the process. -/
def step (s : State cfg secrets capacity) :
    Act cfg secrets capacity → Option (State cfg secrets capacity)
  | .pool a =>
    if (∃ task, s.place task = .crashed) ∨ ¬s.allows a then none
    else (ThreadPool.step s.pool a).map fun pool ↦ { s with pool := pool }
  | .run i =>
    if ∃ task, s.place task = .crashed then none
    else match s.pool.worker i with
      | .run task =>
        (next cfg opens secrets randomVec task (s.place task) s.dir).map fun r ↦
          { s with place := Function.update s.place task r.1, dir := r.2 }
      | _ => none

/-- The steps without spurious wake-ups. -/
def progress (s : State cfg secrets capacity) :
    Act cfg secrets capacity → Option (State cfg secrets capacity)
  | .pool (.spurious _) => none
  | a => step opens randomVec s a

end Model

section Run

variable {cfg : Config} {opens : Opens} {secrets : List (Option Bytes)}
  {randomVec : List (List ℕ)} {capacity : ℕ} {d : RunDir} {s t : State cfg secrets capacity}

inductive Step (opens : Opens) (randomVec : List (List ℕ)) (s : State cfg secrets capacity) :
    Act cfg secrets capacity → State cfg secrets capacity → Prop
  | pool (a : ThreadPool.Act (Task secrets.length cfg.threadNum) capacity)
    {pool : ThreadPool.State (Task secrets.length cfg.threadNum) capacity}
    (hallows : s.allows a) (hstep : ThreadPool.step s.pool a = some pool) :
    Step opens randomVec s (.pool a) { s with pool := pool }
  | run (i : Fin capacity) {task : Task secrets.length cfg.threadNum} {l : Local} {dir : Dir}
    (hpc : s.pool.worker i = .run task)
    (hnext : next cfg opens secrets randomVec task (s.place task) s.dir = some (l, dir)) :
    Step opens randomVec s (.run i)
      { s with place := Function.update s.place task l, dir := dir }

theorem step_cases {a : Act cfg secrets capacity} (h : step opens randomVec s a = some t) :
    Step opens randomVec s a t ∧ ∀ task, s.place task ≠ .crashed := by
  cases a with
  | pool a =>
    simp only [step] at h
    split_ifs at h with hcrash
    obtain ⟨pool, hstep, rfl⟩ := Option.map_eq_some_iff.mp h
    rw [not_or, not_not] at hcrash
    exact ⟨.pool a hcrash.2 hstep, not_exists.mp hcrash.1⟩
  | run i =>
    simp only [step] at h
    split_ifs at h with hcrash
    cases hpc : s.pool.worker i with
    | run task =>
      simp only [hpc] at h
      obtain ⟨⟨l, dir⟩, hnext, rfl⟩ := Option.map_eq_some_iff.mp h
      exact ⟨.run i hpc hnext, not_exists.mp hcrash⟩
    | _ =>
      simp only [hpc] at h
      cases h

/-- The first stage is under way, or over with all its tasks. -/
inductive Phase (opens : Opens) (randomVec : List (List ℕ)) (d : RunDir)
    (s : State cfg secrets capacity) : Prop
  | tmp (hcall : ∀ t, s.pool.call (.bin t) = .start)
    (hrun : Reachable (together (tmpProgram cfg opens secrets randomVec)) (fun _ _ ↦ True)
      (fun _ ↦ .start, read d) (fun p ↦ s.place (.tmp p.1 p.2), s.dir))
  | bin {place : Fin secrets.length × Fin cfg.threadNum → Local} {dir : Dir}
    (htmp : Reachable (together (tmpProgram cfg opens secrets randomVec)) (fun _ _ ↦ True)
      (fun _ ↦ .start, read d) (place, dir))
    (hended : ∀ p, place p = .ended) (hran : ∀ f t, .tmp f t ∈ s.pool.ran)
    (hrun : Reachable (together (binProgram cfg opens secrets randomVec)) (fun _ _ ↦ True)
      (fun _ ↦ .start, dir) (fun t ↦ s.place (.bin t), s.dir))

structure Inv (opens : Opens) (randomVec : List (List ℕ)) (d : RunDir)
    (s : State cfg secrets capacity) : Prop where
  runs : ThreadPool.Runs s.pool
  running : ThreadPool.Running s.pool
  ran : ∀ task ∈ s.pool.ran, s.place task = .ended
  fresh : ∀ task, s.place task ≠ .start → task ∈ s.pool.taken.map Prod.fst
  phase : Phase opens randomVec d s

theorem Inv.init : Inv opens randomVec d (init cfg secrets capacity d) where
  runs := .init
  running := ⟨rfl, rfl, fun _ ↦ by simp [Parallel.init, ThreadPool.init]⟩
  ran _ h := nomatch h
  fresh _ h := absurd rfl h
  phase := .tmp (fun _ ↦ rfl) .start

/-- A task that has been taken is past its call. -/
theorem Inv.call_ne (h : Inv opens randomVec d s) {task : Task secrets.length cfg.threadNum}
    (htask : task ∈ s.pool.taken.map Prod.fst) : s.pool.call task ≠ .start := by
  have haccepted : task ∈ s.pool.accepted := by
    rw [h.runs.queue.order]
    exact List.mem_append_left _ htask
  rw [h.runs.mem_accepted] at haccepted
  rcases haccepted with hpc | hpc <;> simp [hpc]

theorem Inv.pool (h : Inv opens randomVec d s)
    {a : ThreadPool.Act (Task secrets.length cfg.threadNum) capacity}
    {pool : ThreadPool.State (Task secrets.length cfg.threadNum) capacity} (hallows : s.allows a)
    (hstep : ThreadPool.step s.pool a = some pool) :
    Inv opens randomVec d { s with pool := pool } where
  runs := h.runs.step hstep
  running := h.running.step (fun ha ↦ by rw [ha] at hallows; cases hallows) hstep
  ran task htask := by
    rcases ThreadPool.mem_ran_step hstep htask with hran | ⟨i, rfl, hpc⟩
    · exact h.ran task hran
    · simpa [State.allows, hpc] using hallows
  fresh task htask := List.map_subset _ (ThreadPool.taken_subset hstep) (h.fresh task htask)
  phase := by
    cases h.phase with
    | bin htmp hended hran hrun =>
      exact .bin htmp hended (fun f t ↦ ThreadPool.ran_subset hstep (hran f t)) hrun
    | tmp hcall hrun =>
      by_cases hbin : ∃ t, a = .call (.bin t)
      · obtain ⟨t, rfl⟩ := hbin
        have hran : ∀ f t, Task.tmp f t ∈ s.pool.ran := by
          simpa [State.allows, hcall t] using hallows
        have hfresh : (fun t ↦ s.place (.bin t)) = fun _ ↦ Local.start := by
          funext t'
          by_contra hne
          exact h.call_ne (h.fresh _ hne) (hcall t')
        refine .bin hrun (fun p ↦ h.ran _ (hran p.1 p.2))
          (fun f t ↦ ThreadPool.ran_subset hstep (hran f t)) ?_
        dsimp only
        rw [hfresh]
        exact .start
      · exact .tmp (fun t ↦ ThreadPool.call_start_step hstep (fun ha ↦ hbin ⟨t, ha⟩) (hcall t)) hrun

theorem tmp_injective : Function.Injective
    fun p : Fin secrets.length × Fin cfg.threadNum ↦ Task.tmp p.1 p.2 := by
  intro p q h
  obtain ⟨hf, ht⟩ := Task.tmp.inj h
  exact Prod.ext hf ht

theorem bin_injective : Function.Injective
    fun t : Fin cfg.threadNum ↦ (Task.bin t : Task secrets.length cfg.threadNum) :=
  fun _ _ h ↦ Task.bin.inj h

/-- A step of one task is a step of its stage. -/
theorem together_next {κ : Type} [DecidableEq κ] (name : κ → Task secrets.length cfg.threadNum)
    (hname : Function.Injective name) (c : κ) {l : Local} {dir : Dir}
    (hnext : next cfg opens secrets randomVec (name c) (s.place (name c)) s.dir = some (l, dir)) :
    together (fun c ↦ next cfg opens secrets randomVec (name c))
      (fun c ↦ s.place (name c), s.dir) c =
        some (fun c' ↦ Function.update s.place (name c) l (name c'), dir) := by
  simp only [together, hnext, Option.map_some, Option.some.injEq, Prod.mk.injEq, and_true]
  exact (Function.update_comp_eq_of_injective s.place hname c l).symm

theorem Inv.run (h : Inv opens randomVec d s) {i : Fin capacity}
    {task : Task secrets.length cfg.threadNum} {l : Local} {dir : Dir}
    (hpc : s.pool.worker i = .run task)
    (hnext : next cfg opens secrets randomVec task (s.place task) s.dir = some (l, dir)) :
    Inv opens randomVec d { s with place := Function.update s.place task l, dir := dir } where
  runs := h.runs
  running := h.running
  ran task' htask' := by
    have hne : task' ≠ task := fun heq ↦ (h.runs.exec.running i task hpc).2 (heq ▸ htask')
    dsimp only
    rw [Function.update_of_ne hne]
    exact h.ran task' htask'
  fresh task' htask' := by
    dsimp only at htask'
    by_cases heq : task' = task
    · rw [heq]
      exact List.mem_map_of_mem (h.runs.exec.running i task hpc).1
    · rw [Function.update_of_ne heq] at htask'
      exact h.fresh task' htask'
  phase := by
    have htaken : task ∈ s.pool.taken.map Prod.fst :=
      List.mem_map_of_mem (h.runs.exec.running i task hpc).1
    cases task with
    | tmp f t =>
      cases h.phase with
      | bin htmp hended hran hrun =>
        exact absurd (hran f t) (h.runs.exec.running i _ hpc).2
      | tmp hcall hrun =>
        refine .tmp hcall (.next (a := (f, t)) hrun trivial ?_)
        exact together_next (fun p ↦ .tmp p.1 p.2) tmp_injective (f, t) hnext
    | bin t =>
      cases h.phase with
      | tmp hcall hrun => exact absurd (hcall t) (h.call_ne htaken)
      | bin htmp hended hran hrun =>
        refine .bin htmp hended hran (.next (a := t) hrun trivial ?_)
        exact together_next .bin bin_injective t hnext

theorem reachable_inv {P : State cfg secrets capacity → Act cfg secrets capacity → Prop}
    (h : Reachable (step opens randomVec) P (init cfg secrets capacity d) s) :
    Inv opens randomVec d s := by
  refine h.invariant Inv.init fun s a t hs _ hstep ↦ ?_
  cases (step_cases hstep).1 with
  | pool a hallows hpool => exact hs.pool hallows hpool
  | run i hpc hnext => exact hs.run hpc hnext

/-- A task of the first stage comes to its end without an access out of range. -/
theorem Inv.tmp_ended (h : Inv opens randomVec d s) {f : Fin secrets.length}
    {t : Fin cfg.threadNum}
    (hend : next cfg opens secrets randomVec (.tmp f t) (s.place (.tmp f t)) s.dir = none) :
    s.place (.tmp f t) = .ended := by
  cases h.phase with
  | bin htmp hended hran hrun => exact h.ran _ (hran f t)
  | tmp hcall hrun =>
    have hall := ((tmp_computes cfg opens secrets randomVec).interleave
      (tmp_separate cfg opens secrets randomVec) (allTmp_nodup cfg secrets)
      (mem_allTmp cfg secrets) hrun).1 _ (tmpStage_eq cfg opens secrets randomVec d)
    exact hall.1 (f, t) hend

/-- No step but a spurious wake-up is left. -/
def Over (opens : Opens) (randomVec : List (List ℕ)) (s : State cfg secrets capacity) : Prop :=
  ∀ a, progress opens randomVec s a = none

section Over

variable (hs : Inv opens randomVec d s) (h : Over opens randomVec s)
  (hcrash : ∀ task, s.place task ≠ .crashed)

include h hcrash in
theorem Over.pool_none {a : ThreadPool.Act (Task secrets.length cfg.threadNum) capacity}
    (ha : ∀ i, a ≠ .spurious i) (hallows : s.allows a) : ThreadPool.step s.pool a = none := by
  have hnone := h (.pool a)
  have hstep : step opens randomVec s (.pool a) = none := by
    cases a with
    | spurious i => exact absurd rfl (ha i)
    | _ => exact hnone
  rw [step, if_neg (by simp [hcrash, hallows])] at hstep
  exact Option.map_eq_none_iff.mp hstep

include h hcrash in
theorem Over.stuck : ThreadPool.Stuck s.pool where
  worker i hidle := by
    refine h.pool_none hcrash (by simp) ?_
    cases hpc : s.pool.worker i with
    | run task => exact absurd hpc (hidle task)
    | _ => simp [State.allows, hpc]
  workerNotify i woken := h.pool_none hcrash (by simp) rfl
  call task hpc := by
    refine h.pool_none hcrash (by simp) ?_
    cases task with
    | tmp f t => rfl
    | bin t => simp [State.allows, hpc]
  callNotify c woken := h.pool_none hcrash (by simp) rfl

include hs h hcrash

/-- A worker with a task has a step of the task before it, or its own. -/
theorem Over.idle (i : Fin capacity) (task : Task secrets.length cfg.threadNum) :
    s.pool.worker i ≠ .run task := by
  intro hpc
  have hended : s.place task = .ended := by
    have hnone := h (.run i)
    simp only [progress, step, hpc] at hnone
    rw [if_neg (not_exists.mpr hcrash)] at hnone
    have hnext := Option.map_eq_none_iff.mp hnone
    cases task with
    | tmp f t => exact hs.tmp_ended hnext
    | bin t => exact (binNext_eq_none hnext).resolve_right (hcrash _)
  have hnone := h.pool_none hcrash (a := .worker i) (by simp) (by simp [State.allows, hpc, hended])
  simp [ThreadPool.step, ThreadPool.workerStep, hpc] at hnone

theorem Over.tasks (hcapacity : 0 < capacity) : s.pool.tasks = [] := by
  have hstuck := h.stuck hcrash
  rcases hstuck.worker_cases hs.runs ⟨0, hcapacity⟩ with ⟨task, hpc⟩ | hwait | hreturned
  · exact absurd hpc (h.idle hs hcrash _ _)
  · exact hstuck.tasks_of_wait hs.runs hwait
  · exact (hs.runs.drain.returned _ hreturned).2.1

/-- A call that may begin has come to its end, and its task has been run. -/
theorem Over.ran (hcapacity : 0 < capacity) {task : Task secrets.length cfg.threadNum}
    (hallows : s.allows (.call task)) : task ∈ s.pool.ran := by
  have hstuck := h.stuck hcrash
  have hdone : s.pool.call task = .done := by
    rcases hstuck.call_cases task with hpc | hpc | hpc
    · have hnone := h.pool_none hcrash (by simp) hallows
      simp [ThreadPool.step, ThreadPool.callStep, hpc, hstuck.free hs.runs] at hnone
    · exact hpc
    · exact absurd hpc (hs.running.call task)
  have hperm := hs.runs.ran_perm (h.tasks hs hcrash hcapacity) (h.idle hs hcrash)
  exact hperm.mem_iff.mpr ((hs.runs.mem_accepted task).mpr (.inr hdone))

theorem Over.all_ran (hcapacity : 0 < capacity) (task : Task secrets.length cfg.threadNum) :
    task ∈ s.pool.ran := by
  have htmp (f : Fin secrets.length) (t : Fin cfg.threadNum) : Task.tmp f t ∈ s.pool.ran :=
    h.ran hs hcrash hcapacity rfl
  cases task with
  | tmp f t => exact htmp f t
  | bin t => exact h.ran hs hcrash hcapacity (by simp [State.allows, htmp])

end Over

/-- The directory the second stage starts from is the one the first stage leaves. -/
theorem tmp_dir {place : Fin secrets.length × Fin cfg.threadNum → Local} {dir : Dir}
    (htmp : Reachable (together (tmpProgram cfg opens secrets randomVec)) (fun _ _ ↦ True)
      (fun _ ↦ .start, read d) (place, dir)) (hended : ∀ p, place p = .ended) :
    dir = read (tmpDir cfg opens secrets randomVec d) := by
  have hall := ((tmp_computes cfg opens secrets randomVec).interleave
    (tmp_separate cfg opens secrets randomVec) (allTmp_nodup cfg secrets)
    (mem_allTmp cfg secrets) htmp).1 _ (tmpStage_eq cfg opens secrets randomVec d)
  refine hall.2 fun p ↦ ?_
  dsimp only
  rw [hended]
  exact (tmp_computes cfg opens secrets randomVec).done p dir

/-- What the second stage makes of it, in whatever order its tasks take their steps. -/
theorem Inv.bin_dir (hs : Inv opens randomVec d s) {t : Fin cfg.threadNum}
    (ht : s.place (.bin t) ≠ .start) :
    (∀ d', binDir cfg opens secrets (tmpDir cfg opens secrets randomVec d) = some d' →
      (∀ t, s.place (.bin t) ≠ .crashed) ∧
        ((∀ t, s.place (.bin t) = .ended) → s.dir = read d')) ∧
    (binDir cfg opens secrets (tmpDir cfg opens secrets randomVec d) = none →
      ∃ t, s.place (.bin t) ≠ .ended) := by
  cases hs.phase with
  | tmp hcall hrun => exact absurd (hcall t) (hs.call_ne (hs.fresh _ ht))
  | bin htmp hended hran hrun =>
    rw [tmp_dir htmp hended] at hrun
    have hcomputes := bin_computes cfg opens secrets randomVec
    obtain ⟨hsome, hnone⟩ := hcomputes.interleave (bin_separate cfg opens secrets randomVec)
      (List.nodup_finRange _) List.mem_finRange hrun
    rw [binStage_eq] at hsome hnone
    refine ⟨fun d' hd' ↦ ?_, fun hd' ↦ ?_⟩
    · obtain ⟨hend, hdir⟩ := hsome d' hd'
      refine ⟨fun t hcrash ↦ ?_, fun hall ↦ hdir fun t ↦ ?_⟩
      · have hdead : binProgram cfg opens secrets randomVec t (s.place (.bin t)) s.dir = none := by
          rw [hcrash]
          exact hcomputes.dead t _
        exact absurd ((hend t hdead).symm.trans hcrash) (by simp)
      · dsimp only
        rw [hall t]
        exact hcomputes.done t _
    · obtain ⟨t, ht⟩ := hnone hd'
      refine ⟨t, fun hended ↦ ?_⟩
      have hdone : binProgram cfg opens secrets randomVec t (s.place (.bin t)) s.dir = none := by
        rw [hended]
        exact hcomputes.done t _
      exact absurd (hended.symm.trans (ht hdone)) (by simp)

/-- What a task can still do. -/
def placeCost (fileNum : ℕ) : Local → ℕ
  | .start => 3 * fileNum + 5
  | .reading i _ => 3 * (fileNum - i) + 3
  | .removing i _ => 3 * (fileNum - (i + 1)) + 4
  | .computed _ => 2
  | .opened _ => 1
  | .ended => 0
  | .crashed => 0

theorem save_cost {flag : Bool} {file : File} {l l' : Local} {dir dir' : Dir} (fileNum : ℕ)
    (h : save flag file l dir = some (l', dir')) : placeCost fileNum l' < placeCost fileNum l := by
  cases l with
  | computed ss =>
    simp only [save] at h
    split_ifs at h <;> cases h <;> simp [placeCost]
  | opened ss =>
    cases h
    simp [placeCost]
  | _ => cases h

theorem next_cost {task : Task secrets.length cfg.threadNum} {l l' : Local} {dir dir' : Dir}
    (h : next cfg opens secrets randomVec task l dir = some (l', dir')) :
    placeCost secrets.length l' < placeCost secrets.length l := by
  cases task with
  | tmp f t =>
    cases l with
    | start =>
      simp only [next, tmpNext] at h
      split at h <;> cases h <;> simp [placeCost]
    | _ =>
      simp only [next, tmpNext] at h
      exact save_cost _ h
  | bin t =>
    cases l with
    | start =>
      cases h
      simp [placeCost]
    | reading i bufferVec =>
      simp only [next, binNext] at h
      split_ifs at h <;> split at h <;> cases h <;> simp only [placeCost] <;> omega
    | removing i bufferVec =>
      cases h
      simp [placeCost]
    | _ =>
      simp only [next, binNext] at h
      exact save_cost _ h

def State.cost (s : State cfg secrets capacity) : ℕ :=
  s.pool.cost + ∑ task, placeCost secrets.length (s.place task)

theorem progress_step {a : Act cfg secrets capacity} (h : progress opens randomVec s a = some t) :
    step opens randomVec s a = some t := by
  cases a with
  | run i => exact h
  | pool a =>
    cases a with
    | spurious i => cases h
    | _ => exact h

theorem progress_cost {a : Act cfg secrets capacity} (h : progress opens randomVec s a = some t) :
    t.cost < s.cost := by
  cases (step_cases (progress_step h)).1 with
  | @pool a pool hallows hpool =>
    have hpool : ThreadPool.progress s.pool a = some pool := by
      cases a with
      | spurious i => cases h
      | _ => exact hpool
    exact Nat.add_lt_add_right (ThreadPool.progress_cost hpool) _
  | run i hpc hnext => exact Nat.add_lt_add_left (sum_update_lt _ _ (next_cost hnext)) _

theorem init_cost (d : RunDir) : (init cfg secrets capacity d).cost =
    7 * capacity + (3 * secrets.length + 20) * Fintype.card (Task secrets.length cfg.threadNum) +
      2 := by
  simp [State.cost, init, ThreadPool.State.cost, ThreadPool.init, ThreadPool.Worker.cost,
    ThreadPool.Call.cost, ThreadPool.Destructor.cost, placeCost]
  ring

/-- The stages of an iteration on the pool: however its workers, the calls and the steps of the
tasks interleave, they come to an end, and the directory is then the one `generateKey` merges. An
access out of range happens in all interleavings or in none, by what `binDir` says. -/
theorem parallel_key (hcapacity : 0 < capacity) (opens : Opens) (secrets : List (Option Bytes))
    (randomVec : List (List ℕ)) (d : RunDir) :
    (∀ acts (s : State cfg secrets capacity),
      exec (progress opens randomVec) (init cfg secrets capacity d) acts = some s →
      acts.length ≤ 7 * capacity +
        (3 * secrets.length + 20) * Fintype.card (Task secrets.length cfg.threadNum) + 2) ∧
    ∀ s : State cfg secrets capacity,
      Reachable (step opens randomVec) (fun _ _ ↦ True) (init cfg secrets capacity d) s →
      Over opens randomVec s →
      (∃ d', binDir cfg opens secrets (tmpDir cfg opens secrets randomVec d) = some d' ∧
        (∀ task, task ∈ s.pool.ran ∧ s.place task = .ended) ∧ s.dir = read d' ∧
        generateKey cfg opens secrets randomVec d = merge cfg opens d') ∨
      (binDir cfg opens secrets (tmpDir cfg opens secrets randomVec d) = none ∧
        (∃ task, s.place task = .crashed) ∧
        generateKey cfg opens secrets randomVec d = none) := by
  refine ⟨fun acts s hrun ↦ ?_, fun s hrun hover ↦ ?_⟩
  · have hle := exec_length_le (I := fun _ ↦ True) (P := fun _ _ ↦ True) (μ := State.cost)
      (fun _ _ _ _ hstep ↦ ⟨trivial, trivial, progress_cost hstep⟩) trivial hrun
    rwa [init_cost] at hle
  · have hs := reachable_inv hrun
    rw [generateKey_eq_stages]
    by_cases hcrash : ∃ task, s.place task = .crashed
    · right
      suffices hnone :
          binDir cfg opens secrets (tmpDir cfg opens secrets randomVec d) = none from
        ⟨hnone, hcrash, by rw [hnone]; rfl⟩
      obtain ⟨task, htask⟩ := hcrash
      cases task with
      | tmp f t =>
        have hended := hs.tmp_ended (f := f) (t := t) (by rw [htask]; rfl)
        rw [htask] at hended
        cases hended
      | bin t =>
        cases hbin : binDir cfg opens secrets (tmpDir cfg opens secrets randomVec d) with
        | none => rfl
        | some d' => exact absurd htask (((hs.bin_dir (t := t) (by simp [htask])).1 d' hbin).1 t)
    · left
      have hran := hover.all_ran hs (not_exists.mp hcrash) hcapacity
      have hended (task) : s.place task = .ended := hs.ran _ (hran task)
      have hbegun : s.place (.bin ⟨0, cfg.threadNum_pos⟩) ≠ .start := by simp [hended]
      obtain ⟨hsome, hnone⟩ := hs.bin_dir hbegun
      cases hbin : binDir cfg opens secrets (tmpDir cfg opens secrets randomVec d) with
      | none =>
        obtain ⟨t, ht⟩ := hnone hbin
        exact absurd (hended (.bin t)) ht
      | some d' =>
        exact ⟨d', rfl, fun task ↦ ⟨hran task, hended task⟩,
          (hsome d' hbin).2 fun t ↦ hended (.bin t), rfl⟩

/-- The pool of the script, over one file that is all zero. -/
theorem parallel_key_release :
    let secrets := [zeros Config.release.secretASize]
    let randomVec := generateRandom Config.release id 0 secrets.length
    ∃ s : State Config.release (secrets.map some)
        (Config.release.fileNum * Config.release.threadNum),
      Over Opens.all randomVec s ∧ (∀ task, task ∈ s.pool.ran) ∧ ∃ d' d'', s.dir = read d' ∧
        merge Config.release Opens.all d' = some (d'', true) ∧
        d''.bin = some (runningKey Config.release secrets randomVec) := by
  intro secrets randomVec
  let d : RunDir := ⟨fun _ _ ↦ none, fun _ ↦ none, none⟩
  obtain ⟨s, hrun, hover⟩ := exists_stuck (P := fun _ _ ↦ True)
    (fun _ _ _ (_ : True) hstep ↦ ⟨trivial, trivial, progress_cost hstep⟩)
    (init Config.release (secrets.map some)
      (Config.release.fileNum * Config.release.threadNum) d) trivial
  have hrun : Reachable (step Opens.all randomVec) (fun _ _ ↦ True) (init _ _ _ d) s :=
    hrun.invariant .start fun s a t hs _ hstep ↦ .next (a := a) hs trivial (progress_step hstep)
  have hkey := generateKey_all Config.release secrets randomVec d (List.cons_ne_nil _ _)
    fun f hf t ht ↦ generateRandom_row Config.release id 0 hf ht
  obtain ⟨d'', hd'', hbin⟩ := hkey
  rcases (parallel_key (show 0 < Config.release.fileNum * Config.release.threadNum by decide)
    Opens.all (secrets.map some) randomVec d).2 s hrun hover with
    ⟨d', -, hran, hdir, hmerge⟩ | ⟨-, -, hnone⟩
  · exact ⟨s, hover, fun task ↦ (hran task).1, d', d'', hdir, hmerge.symm.trans hd'', hbin⟩
  · rw [hnone] at hd''
    cases hd''

end Run

end ShannonNet.Generator.Parallel
