import ShannonNet.Library.Runs

namespace ShannonNet.Utils.ThreadPool

open Library.Runs

/-- A call of `enqueue`, which names the task it hands in. `check` and `push` are inside its
critical section, before and behind the test of `stopPool_`. -/
inductive Call
  | start
  | check
  | push
  | notify
  | done
  | threw
  deriving DecidableEq

/-- Where a worker is in `waitLoop`. It holds the mutex from `test`, where it evaluates the
predicate, to the end of `window`, where it enters the wait set, or of `ready`, where the predicate
was true. -/
inductive Worker (κ : Type)
  | lock
  | test
  | window
  | wait (notified : Bool)
  | ready
  | run (task : κ)
  | notify
  | returned
  deriving DecidableEq

inductive Destructor
  | idle
  | stopped
  | joining (thread : ℕ)
  deriving DecidableEq

inductive Owner (κ : Type) (capacity : ℕ)
  | worker (i : Fin capacity)
  | call (c : κ)
  deriving DecidableEq

/-- The pool, with a record of the tasks accepted, of who took them, and of those that were run. -/
structure State (κ : Type) (capacity : ℕ) where
  mutex : Option (Owner κ capacity)
  tasks : List κ
  stopPool : Bool
  worker : Fin capacity → Worker κ
  call : κ → Call
  destructor : Destructor
  accepted : List κ
  taken : List (κ × Fin capacity)
  ran : List κ

/-- `woken` is the waiter that `notify_one` wakes. -/
inductive Act (κ : Type) (capacity : ℕ)
  | worker (i : Fin capacity)
  | workerNotify (i : Fin capacity) (woken : Option (Fin capacity))
  | spurious (i : Fin capacity)
  | call (c : κ)
  | callNotify (c : κ) (woken : Option (Fin capacity))
  | stop
  | notifyAll
  | join

variable {κ : Type} {capacity : ℕ}

/-- The constructor starts the threads. -/
def init (κ : Type) (capacity : ℕ) : State κ capacity :=
  ⟨none, [], false, fun _ ↦ .lock, fun _ ↦ .start, .idle, [], [], []⟩

def State.setWorker (s : State κ capacity) (i : Fin capacity) (w : Worker κ) : State κ capacity :=
  { s with worker := Function.update s.worker i w }

section Steps

variable [DecidableEq κ]

def State.setCall (s : State κ capacity) (c : κ) (pc : Call) : State κ capacity :=
  { s with call := Function.update s.call c pc }

def State.notifyOne (s : State κ capacity) : Option (Fin capacity) → Option (State κ capacity)
  | some j => if s.worker j = .wait false then some (s.setWorker j (.wait true)) else none
  | none => if ∀ j, s.worker j ≠ .wait false then some s else none

def workerStep (s : State κ capacity) (i : Fin capacity) : Option (State κ capacity) :=
  match s.worker i with
  | .lock | .wait true =>
    if s.mutex = none then some { s.setWorker i .test with mutex := some (.worker i) } else none
  | .test => some (s.setWorker i (if s.stopPool || !s.tasks.isEmpty then .ready else .window))
  | .window => some { s.setWorker i (.wait false) with mutex := none }
  | .ready =>
    if s.stopPool && s.tasks.isEmpty then some { s.setWorker i .returned with mutex := none }
    else match s.tasks with
      | task :: tasks =>
        some { s.setWorker i (.run task) with
          mutex := none
          tasks := tasks
          taken := s.taken ++ [(task, i)] }
      -- `front()` of an empty queue
      | [] => none
  | .run task => some { s.setWorker i .notify with ran := s.ran ++ [task] }
  | .wait false | .notify | .returned => none

def callStep (s : State κ capacity) (c : κ) : Option (State κ capacity) :=
  match s.call c with
  | .start =>
    if s.mutex = none then some { s.setCall c .check with mutex := some (.call c) } else none
  | .check =>
    if s.stopPool then some { s.setCall c .threw with mutex := none }
    else some (s.setCall c .push)
  | .push =>
    some { s.setCall c .notify with
      mutex := none
      tasks := s.tasks ++ [c]
      accepted := s.accepted ++ [c] }
  | .notify | .done | .threw => none

def step (s : State κ capacity) : Act κ capacity → Option (State κ capacity)
  | .worker i => workerStep s i
  | .workerNotify i woken =>
    if s.worker i = .notify then (s.setWorker i .lock).notifyOne woken else none
  | .spurious i => if s.worker i = .wait false then some (s.setWorker i (.wait true)) else none
  | .call c => callStep s c
  | .callNotify c woken =>
    if s.call c = .notify then (s.setCall c .done).notifyOne woken else none
  | .stop =>
    if s.destructor = .idle then some { s with stopPool := true, destructor := .stopped } else none
  | .notifyAll =>
    if s.destructor = .stopped then
      some { s with
        worker := fun i ↦ if s.worker i = .wait false then .wait true else s.worker i
        destructor := .joining 0 }
    else none
  | .join =>
    match s.destructor with
    | .joining thread =>
      if h : thread < capacity then
        if s.worker ⟨thread, h⟩ = .returned then
          some { s with destructor := .joining (thread + 1) }
        else none
      else none
    | _ => none

end Steps

/-- Some waiters are notified, and no other worker is touched. -/
def Woken (f g : Fin capacity → Worker κ) : Prop :=
  ∀ i, g i = f i ∨ f i = .wait false ∧ g i = .wait true

theorem Woken.refl (f : Fin capacity → Worker κ) : Woken f f := fun _ ↦ Or.inl rfl

theorem Woken.eq_of_ne {f g : Fin capacity → Worker κ} (h : Woken f g) {i : Fin capacity}
    (hi : f i ≠ .wait false) : g i = f i :=
  (h i).resolve_right fun hwait ↦ hi hwait.1

theorem woken_update {f : Fin capacity → Worker κ} {i : Fin capacity} (hi : f i = .wait false) :
    Woken f (Function.update f i (.wait true)) := by
  intro j
  by_cases hj : j = i
  · subst hj
    rw [Function.update_self]
    exact Or.inr ⟨hi, rfl⟩
  · rw [Function.update_of_ne hj]
    exact Or.inl rfl

section Moves

variable [DecidableEq κ]

theorem notifyOne_woken {s t : State κ capacity} {woken : Option (Fin capacity)}
    (h : s.notifyOne woken = some t) :
    ∃ g, Woken s.worker g ∧ t = { s with worker := g } := by
  cases woken with
  | none =>
    simp only [State.notifyOne] at h
    split_ifs at h
    obtain rfl := Option.some.inj h
    exact ⟨s.worker, Woken.refl _, rfl⟩
  | some j =>
    simp only [State.notifyOne] at h
    split_ifs at h with hj
    obtain rfl := Option.some.inj h
    exact ⟨_, woken_update hj, rfl⟩

/-- The steps, notifications apart. -/
inductive Move (s : State κ capacity) : State κ capacity → Prop
  | stay : Move s s
  | acquire (i : Fin capacity) (hpc : s.worker i = .lock ∨ s.worker i = .wait true)
      (hfree : s.mutex = none) :
      Move s { s.setWorker i .test with mutex := some (.worker i) }
  | pass (i : Fin capacity) (hpc : s.worker i = .test) (hpred : s.stopPool = true ∨ s.tasks ≠ []) :
      Move s (s.setWorker i .ready)
  | fail (i : Fin capacity) (hpc : s.worker i = .test) (hrunning : s.stopPool = false)
      (hempty : s.tasks = []) : Move s (s.setWorker i .window)
  | block (i : Fin capacity) (hpc : s.worker i = .window) :
      Move s { s.setWorker i (.wait false) with mutex := none }
  | leave (i : Fin capacity) (hpc : s.worker i = .ready) (hstop : s.stopPool = true)
      (hempty : s.tasks = []) : Move s { s.setWorker i .returned with mutex := none }
  | take (i : Fin capacity) (task : κ) (tasks : List κ) (hpc : s.worker i = .ready)
      (htasks : s.tasks = task :: tasks) :
      Move s { s.setWorker i (.run task) with
        mutex := none
        tasks := tasks
        taken := s.taken ++ [(task, i)] }
  | finish (i : Fin capacity) (task : κ) (hpc : s.worker i = .run task) :
      Move s { s.setWorker i .notify with ran := s.ran ++ [task] }
  | again (i : Fin capacity) (hpc : s.worker i = .notify) : Move s (s.setWorker i .lock)
  | enter (c : κ) (hpc : s.call c = .start) (hfree : s.mutex = none) :
      Move s { s.setCall c .check with mutex := some (.call c) }
  | reject (c : κ) (hpc : s.call c = .check) (hstop : s.stopPool = true) :
      Move s { s.setCall c .threw with mutex := none }
  | accept (c : κ) (hpc : s.call c = .check) (hrunning : s.stopPool = false) :
      Move s (s.setCall c .push)
  | push (c : κ) (hpc : s.call c = .push) :
      Move s { s.setCall c .notify with
        mutex := none
        tasks := s.tasks ++ [c]
        accepted := s.accepted ++ [c] }
  | exit (c : κ) (hpc : s.call c = .notify) : Move s (s.setCall c .done)
  | stop (hpc : s.destructor = .idle) :
      Move s { s with stopPool := true, destructor := .stopped }
  | destroy (destructor : Destructor) (hpc : s.destructor ≠ .idle) (hne : destructor ≠ .idle) :
      Move s { s with destructor := destructor }

variable {s t : State κ capacity}

theorem workerStep_move {i : Fin capacity} (h : workerStep s i = some t) : Move s t := by
  unfold workerStep at h
  cases hpc : s.worker i with
  | lock =>
    simp only [hpc] at h
    split_ifs at h with hfree
    exact Option.some.inj h ▸ Move.acquire i (Or.inl hpc) hfree
  | test =>
    simp only [hpc] at h
    by_cases hpred : s.stopPool = true ∨ s.tasks ≠ []
    · rw [if_pos (by simpa using hpred)] at h
      exact Option.some.inj h ▸ Move.pass i hpc hpred
    · rw [if_neg (by simpa using hpred)] at h
      rw [not_or, Bool.not_eq_true, not_not] at hpred
      exact Option.some.inj h ▸ Move.fail i hpc hpred.1 hpred.2
  | window =>
    simp only [hpc] at h
    exact Option.some.inj h ▸ Move.block i hpc
  | wait notified =>
    cases notified with
    | true =>
      simp only [hpc] at h
      split_ifs at h with hfree
      exact Option.some.inj h ▸ Move.acquire i (Or.inr hpc) hfree
    | false =>
      simp only [hpc] at h
      cases h
  | ready =>
    simp only [hpc] at h
    split_ifs at h with hleave
    · rw [Bool.and_eq_true, List.isEmpty_iff] at hleave
      exact Option.some.inj h ▸ Move.leave i hpc hleave.1 hleave.2
    · cases htasks : s.tasks with
      | nil =>
        rw [htasks] at h
        cases h
      | cons task tasks =>
        rw [htasks] at h
        exact Option.some.inj h ▸ Move.take i task tasks hpc htasks
  | run task =>
    simp only [hpc] at h
    exact Option.some.inj h ▸ Move.finish i task hpc
  | notify =>
    simp only [hpc] at h
    cases h
  | returned =>
    simp only [hpc] at h
    cases h

theorem callStep_move {c : κ} (h : callStep s c = some t) : Move s t := by
  unfold callStep at h
  cases hpc : s.call c with
  | start =>
    simp only [hpc] at h
    split_ifs at h with hfree
    exact Option.some.inj h ▸ Move.enter c hpc hfree
  | check =>
    simp only [hpc] at h
    split_ifs at h with hstop
    · exact Option.some.inj h ▸ Move.reject c hpc hstop
    · exact Option.some.inj h ▸ Move.accept c hpc (Bool.not_eq_true _ ▸ hstop)
  | push =>
    simp only [hpc] at h
    exact Option.some.inj h ▸ Move.push c hpc
  | notify =>
    simp only [hpc] at h
    cases h
  | done =>
    simp only [hpc] at h
    cases h
  | threw =>
    simp only [hpc] at h
    cases h

/-- Every step is a move and a notification, one of which may be idle. -/
theorem step_cases {a : Act κ capacity} (h : step s a = some t) :
    ∃ u, Move s u ∧ ∃ g, Woken u.worker g ∧ t = { u with worker := g } := by
  cases a with
  | worker i => exact ⟨t, workerStep_move h, t.worker, Woken.refl _, rfl⟩
  | workerNotify i woken =>
    simp only [step] at h
    split_ifs at h with hpc
    exact ⟨_, .again i hpc, notifyOne_woken h⟩
  | spurious i =>
    simp only [step] at h
    split_ifs at h with hpc
    obtain rfl := Option.some.inj h
    exact ⟨s, .stay, _, woken_update hpc, rfl⟩
  | call c => exact ⟨t, callStep_move h, t.worker, Woken.refl _, rfl⟩
  | callNotify c woken =>
    simp only [step] at h
    split_ifs at h with hpc
    exact ⟨_, .exit c hpc, notifyOne_woken h⟩
  | stop =>
    simp only [step] at h
    split_ifs at h with hpc
    obtain rfl := Option.some.inj h
    exact ⟨_, .stop hpc, s.worker, Woken.refl _, rfl⟩
  | notifyAll =>
    simp only [step] at h
    split_ifs at h with hpc
    obtain rfl := Option.some.inj h
    refine ⟨_, .destroy (.joining 0) (by simp [hpc]) (by simp), _, fun i ↦ ?_, rfl⟩
    by_cases hi : s.worker i = .wait false
    · exact Or.inr ⟨hi, if_pos hi⟩
    · exact Or.inl (if_neg hi)
  | join =>
    simp only [step] at h
    cases hpc : s.destructor with
    | joining thread =>
      simp only [hpc] at h
      split_ifs at h
      obtain rfl := Option.some.inj h
      exact ⟨_, .destroy (.joining (thread + 1)) (by simp [hpc]) (by simp), s.worker,
        Woken.refl _, rfl⟩
    | idle =>
      simp only [hpc] at h
      cases h
    | stopped =>
      simp only [hpc] at h
      cases h

end Moves

end ShannonNet.Utils.ThreadPool
