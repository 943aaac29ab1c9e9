import ShannonNet.Utils.ThreadPoolTasks

namespace ShannonNet.Utils.ThreadPool

open Library.Runs

variable {κ : Type} {capacity : ℕ} {s t u : State κ capacity}

/-- The destructor has notified, there is nothing to do, and a worker waits for a notification. -/
structure Hang (s : State κ capacity) : Prop where
  joining : ∃ thread, s.destructor = .joining thread
  empty : s.tasks = []
  quiet : ∀ i, (∀ task, s.worker i ≠ .run task) ∧ s.worker i ≠ .notify
  waiting : ∃ i, s.worker i = .wait false

/-- `notify_all` finds no worker between a failed test and the wait set. -/
def NoWindow (s : State κ capacity) (a : Act κ capacity) : Prop :=
  a = .notifyAll → ∀ i, s.worker i ≠ .window

/-- Once the stop flag is set, a worker that is past its wait never waits again. -/
structure Awake (s : State κ capacity) : Prop where
  stop : s.stopPool = true
  window : ∀ i, s.worker i ≠ .window
  waiting : ∀ i, s.worker i ≠ .wait false

theorem Awake.not_hang (h : Awake s) : ¬Hang s := by
  intro hang
  obtain ⟨i, hi⟩ := hang.waiting
  exact h.waiting i hi

theorem Awake.setWorker (h : Awake s) (i : Fin capacity) {w : Worker κ} (hwindow : w ≠ .window)
    (hwaiting : w ≠ .wait false) : Awake (s.setWorker i w) where
  stop := h.stop
  window j hj := h.window j (worker_of_setWorker hwindow hj)
  waiting j hj := h.waiting j (worker_of_setWorker hwaiting hj)

theorem Awake.setMutex (h : Awake s) (m : Option (Owner κ capacity)) :
    Awake { s with mutex := m } :=
  ⟨h.stop, h.window, h.waiting⟩

theorem Awake.woken (h : Awake u) {g : Fin capacity → Worker κ} (hg : Woken u.worker g) :
    Awake { u with worker := g } where
  stop := h.stop
  window i hi := h.window i (hg.eq_of_eq (by simp) hi)
  waiting i hi := h.waiting i (hg.eq_of_eq (by simp) hi)

theorem workerStep_destructor {i : Fin capacity} (h : workerStep s i = some t) :
    t.destructor = s.destructor := by
  grind [workerStep, State.setWorker]

def Worker.rank : Worker κ → ℕ
  | run _ => 2
  | notify => 1
  | _ => 0

/-- A worker is in the window after `notify_all`. -/
structure Late (i : Fin capacity) (s : State κ capacity) : Prop where
  window : s.worker i = .window
  waiting : ∀ j, s.worker j ≠ .wait false
  joining : s.destructor = .joining 0
  empty : s.tasks = []

theorem Late.setWorker {i j : Fin capacity} (h : Late i s) {w : Worker κ}
    (hj : s.worker j ≠ .window) (hw : w ≠ .wait false) : Late i (s.setWorker j w) where
  window := by
    have hne : i ≠ j := fun heq ↦ hj (heq ▸ h.window)
    rw [setWorker_of_ne s hne, h.window]
  waiting k hk := h.waiting k (worker_of_setWorker hw hk)
  joining := h.joining
  empty := h.empty

section Moves

variable [DecidableEq κ]

theorem Awake.move (h : Awake s) (hmove : Move s u) : Awake u := by
  cases hmove with
  | acquire i hpc hfree =>
    have hset : Awake (s.setWorker i .test) := h.setWorker i (by simp) (by simp)
    exact hset.setMutex _
  | pass i hpc hpred => exact h.setWorker i (by simp) (by simp)
  | fail i hpc hrunning hempty =>
    rw [h.stop] at hrunning
    cases hrunning
  | block i hpc => exact absurd hpc (h.window i)
  | leave i hpc hstop hempty =>
    have hset : Awake (s.setWorker i .returned) := h.setWorker i (by simp) (by simp)
    exact hset.setMutex _
  | take i task tasks hpc htasks =>
    have hset : Awake (s.setWorker i (.run task)) := h.setWorker i (by simp) (by simp)
    exact ⟨hset.stop, hset.window, hset.waiting⟩
  | finish i task hpc =>
    have hset : Awake (s.setWorker i .notify) := h.setWorker i (by simp) (by simp)
    exact ⟨hset.stop, hset.window, hset.waiting⟩
  | again i hpc => exact h.setWorker i (by simp) (by simp)
  | stop => exact ⟨rfl, h.window, h.waiting⟩
  | _ => exact ⟨h.stop, h.window, h.waiting⟩

theorem Awake.step {a : Act κ capacity} (h : Awake s) (hstep : step s a = some t) : Awake t := by
  obtain ⟨u, hmove, g, hg, rfl⟩ := step_cases hstep
  exact (h.move hmove).woken hg

theorem callStep_destructor {c : κ} (h : callStep s c = some t) :
    t.destructor = s.destructor := by
  grind [callStep, State.setCall]

theorem joining_of_step {a : Act κ capacity} (ha : a ≠ .notifyAll) (h : step s a = some t)
    {thread : ℕ} (ht : t.destructor = .joining thread) :
    ∃ thread, s.destructor = .joining thread := by
  cases a with
  | worker i => exact ⟨thread, workerStep_destructor h ▸ ht⟩
  | workerNotify i woken =>
    simp only [step] at h
    split_ifs at h
    obtain ⟨g, -, rfl⟩ := notifyOne_woken h
    exact ⟨thread, ht⟩
  | spurious i =>
    simp only [step] at h
    split_ifs at h
    obtain rfl := Option.some.inj h
    exact ⟨thread, ht⟩
  | call c => exact ⟨thread, callStep_destructor h ▸ ht⟩
  | callNotify c woken =>
    simp only [step] at h
    split_ifs at h
    obtain ⟨g, -, rfl⟩ := notifyOne_woken h
    exact ⟨thread, ht⟩
  | stop =>
    simp only [step] at h
    split_ifs at h
    rw [← Option.some.inj h] at ht
    cases ht
  | notifyAll => exact absurd rfl ha
  | join =>
    simp only [step] at h
    cases hpc : s.destructor with
    | joining thread => exact ⟨thread, rfl⟩
    | idle =>
      rw [hpc] at h
      cases h
    | stopped =>
      rw [hpc] at h
      cases h

theorem notifyAll_cases (h : step s .notifyAll = some t) :
    s.destructor = .stopped ∧ t = { s with
      worker := fun i ↦ if s.worker i = .wait false then .wait true else s.worker i
      destructor := .joining 0 } := by
  simp only [step] at h
  split_ifs at h with hpc
  exact ⟨hpc, (Option.some.inj h).symm⟩

theorem Awake.notifyAll (hstop : s.stopPool = true) (hwindow : ∀ i, s.worker i ≠ .window)
    (h : ThreadPool.step s .notifyAll = some t) : Awake t := by
  obtain ⟨-, rfl⟩ := notifyAll_cases h
  refine ⟨hstop, fun i ↦ ?_, fun i ↦ ?_⟩
  · dsimp only
    split_ifs with hi
    · simp
    · exact hwindow i
  · dsimp only
    split_ifs with hi
    · simp
    · exact hi

theorem stop_of_move (h : s.destructor ≠ .idle → s.stopPool = true) (hmove : Move s u) :
    u.destructor ≠ .idle → u.stopPool = true := by
  cases hmove with
  | stop hpc => exact fun _ ↦ rfl
  | destroy destructor hpc hne => exact fun _ ↦ h hpc
  | _ => exact h

theorem stop_of_reachable {P : State κ capacity → Act κ capacity → Prop}
    (h : Reachable step P (init κ capacity) s) : s.destructor ≠ .idle → s.stopPool = true := by
  refine h.invariant (I := fun s ↦ s.destructor ≠ .idle → s.stopPool = true)
    (fun hidle ↦ absurd rfl hidle) fun s a t hs _ hstep ↦ ?_
  obtain ⟨u, hmove, g, -, rfl⟩ := step_cases hstep
  have hu := stop_of_move hs hmove
  exact hu

/-- `notify_all` is the only way to the joins, and no worker waits after it if none was about to. -/
theorem awake_of_reachable (h : Reachable step NoWindow (init κ capacity) s) {thread : ℕ}
    (hthread : s.destructor = .joining thread) : Awake s := by
  induction h generalizing thread with
  | start => cases hthread
  | @next s t a hrun hguard hstep ih =>
    by_cases ha : a = .notifyAll
    · subst ha
      have hpc := (notifyAll_cases hstep).1
      exact .notifyAll (stop_of_reachable hrun (by simp [hpc])) (hguard rfl) hstep
    · obtain ⟨thread, hs⟩ := joining_of_step ha hstep hthread
      exact (ih hs).step hstep

/-- The workers other than the one in the window come to the end of their task. -/
def settle (s : State κ capacity) (j : Fin capacity) : Option (State κ capacity) :=
  match s.worker j with
  | .run _ => step s (.worker j)
  | .notify => step s (.workerNotify j none)
  | _ => none

theorem Late.settle {i j : Fin capacity} (h : Late i s) (hstep : settle s j = some t) :
    Late i t ∧ True ∧ ∑ k, (t.worker k).rank < ∑ k, (s.worker k).rank := by
  cases hpc : s.worker j with
  | run task =>
    simp only [ThreadPool.settle, hpc, step, workerStep, Option.some.injEq] at hstep
    obtain rfl := hstep
    have hlate := h.setWorker (j := j) (w := .notify) (by simp [hpc]) (by simp)
    refine ⟨⟨hlate.window, hlate.waiting, hlate.joining, hlate.empty⟩, trivial, ?_⟩
    exact sum_update_lt Worker.rank s.worker (by simp [hpc, Worker.rank])
  | notify =>
    have hlate := h.setWorker (j := j) (w := .lock) (by simp [hpc]) (by simp)
    simp only [ThreadPool.settle, hpc, step, if_true] at hstep
    rw [State.notifyOne, if_pos hlate.waiting] at hstep
    obtain rfl := Option.some.inj hstep
    exact ⟨hlate, trivial, sum_update_lt Worker.rank s.worker (by simp [hpc, Worker.rank])⟩
  | _ =>
    simp only [ThreadPool.settle, hpc] at hstep
    cases hstep

theorem step_of_settle {j : Fin capacity} (h : settle s j = some t) : ∃ a, step s a = some t := by
  unfold settle at h
  split at h
  · exact ⟨_, h⟩
  · exact ⟨_, h⟩
  · cases h

theorem Late.quiet {i : Fin capacity} (h : Late i s) (hstuck : ∀ j, ThreadPool.settle s j = none)
    (j : Fin capacity) : (∀ task, s.worker j ≠ .run task) ∧ s.worker j ≠ .notify := by
  refine ⟨fun task hpc ↦ ?_, fun hpc ↦ ?_⟩
  · have hnone := hstuck j
    simp only [ThreadPool.settle, hpc, step, workerStep] at hnone
    cases hnone
  · have hlate := h.setWorker (j := j) (w := .lock) (by simp [hpc]) (by simp)
    have hnone := hstuck j
    simp only [ThreadPool.settle, hpc, step, if_true] at hnone
    rw [State.notifyOne, if_pos hlate.waiting] at hnone
    cases hnone

/-- The last to move is the worker in the window, which enters the wait set. -/
theorem Late.hang {i : Fin capacity} (h : Late i s) :
    ∃ t, Reachable step (fun _ _ ↦ True) s t ∧ Hang t := by
  obtain ⟨u, hrun, hstuck⟩ := exists_stuck (P := fun _ _ ↦ True)
    (fun s j t (hlate : Late i s) (hstep : ThreadPool.settle s j = some t) ↦ hlate.settle hstep) s h
  have hlate : Late i u := hrun.invariant h fun s j t hlate _ hstep ↦ (hlate.settle hstep).1
  have hsteps : Reachable step (fun _ _ ↦ True) s u :=
    hrun.invariant .start fun t j v ht _ hstep ↦ by
      obtain ⟨a, ha⟩ := step_of_settle hstep
      exact .next ht trivial ha
  have hblock : step u (.worker i) = some { u.setWorker i (.wait false) with mutex := none } := by
    simp only [step, workerStep, hlate.window]
  refine ⟨_, hsteps.next trivial hblock, ⟨0, hlate.joining⟩, hlate.empty, fun j ↦ ?_, i, ?_⟩
  · have hquiet := hlate.quiet hstuck j
    exact ⟨fun task hj ↦ hquiet.1 task (worker_of_setWorker (by simp) hj),
      fun hj ↦ hquiet.2 (worker_of_setWorker (by simp) hj)⟩
  · exact setWorker_self u i _

theorem late_of_notifyAll {i : Fin capacity} (hinv : Inv s) (hpc : s.worker i = .window)
    (h : step s .notifyAll = some t) : Late i t := by
  obtain ⟨-, rfl⟩ := notifyAll_cases h
  refine ⟨?_, fun j ↦ ?_, rfl, hinv.drain.window i hpc⟩
  · simp only [hpc]
    rfl
  · dsimp only
    split_ifs with hj
    · simp
    · exact hj

/-- No wake-up is lost as long as `notify_all` finds no worker in the window, and it can be lost
whenever there is one. -/
theorem no_lost_wakeup_iff :
    (∀ s : State κ capacity, Reachable step NoWindow (init κ capacity) s → ¬Hang s) ∧
    ∀ s t : State κ capacity, Reachable step (fun _ _ ↦ True) (init κ capacity) s →
      step s .notifyAll = some t →
      ((∀ u, Reachable step (fun _ _ ↦ True) t u → ¬Hang u) ↔ ∀ i, s.worker i ≠ .window) := by
  refine ⟨fun s h hang ↦ ?_, fun s t h hnotify ↦ ⟨fun hsafe i hpc ↦ ?_, fun hwindow u hu ↦ ?_⟩⟩
  · obtain ⟨thread, hthread⟩ := hang.joining
    exact (awake_of_reachable h hthread).not_hang hang
  · obtain ⟨u, hu, hang⟩ := (late_of_notifyAll (reachable_inv h) hpc hnotify).hang
    exact hsafe u hu hang
  · have hpc := (notifyAll_cases hnotify).1
    have hawake : Awake t := .notifyAll (stop_of_reachable h (by simp [hpc])) hwindow hnotify
    have hu : Awake u := hu.invariant hawake fun s a t hs _ hstep ↦ hs.step hstep
    exact hu.not_hang

end Moves

/-- The only worker tests the predicate, the destructor stores the flag and notifies, and then the
worker goes to wait. -/
theorem worker_waits_for_ever :
    ∃ s : State Unit 1, Reachable step (fun _ _ ↦ True) (init Unit 1) s ∧ Hang s := by
  have hrun : ∃ s : State Unit 1, exec step (init Unit 1)
      [.worker 0, .worker 0, .stop, .notifyAll, .worker 0] = some s ∧ Hang s :=
    ⟨_, rfl, ⟨0, rfl⟩, rfl, by decide, 0, rfl⟩
  obtain ⟨s, hs, hang⟩ := hrun
  exact ⟨s, .of_exec hs, hang⟩

end ShannonNet.Utils.ThreadPool
