import ShannonNet.Utils.Shutdown

namespace ShannonNet.Utils.ThreadPool

open Library.Runs

variable {κ : Type} {capacity : ℕ} {s t u : State κ capacity}

/-- The mutex is owned by someone in a critical section. -/
def Owned (s : State κ capacity) : Prop := ∀ o, s.mutex = some o → s.holds o

theorem Owned.free (h : s.mutex = none) : Owned s := by
  intro o ho
  rw [h] at ho
  cases ho

theorem Owned.own {o : Owner κ capacity} (h : s.mutex = some o) (ho : s.holds o) : Owned s := by
  intro o' ho'
  rw [h] at ho'
  cases ho'
  exact ho

theorem Owned.keep (h : Owned s) (hmutex : u.mutex = s.mutex)
    (hframe : ∀ o, s.holds o → u.holds o) :
    Owned u :=
  fun o ho ↦ hframe o (h o (hmutex ▸ ho))

theorem setWorker_holds {i : Fin capacity} {w : Worker κ}
    (hw : (s.worker i).holds → w.holds) (o : Owner κ capacity) (ho : s.holds o) :
    (s.setWorker i w).holds o := by
  cases o with
  | call c => exact ho
  | worker j =>
    by_cases hj : j = i
    · subst hj
      rw [State.holds, setWorker_self]
      exact hw ho
    · rwa [State.holds, setWorker_of_ne s hj]

theorem Owned.woken (h : Owned u) {g : Fin capacity → Worker κ} (hg : Woken u.worker g) :
    Owned { u with worker := g } := by
  refine h.keep rfl fun o ho ↦ ?_
  cases o with
  | call c => exact ho
  | worker i =>
    have hi : u.worker i ≠ .wait false := by
      intro heq
      rw [State.holds, heq] at ho
      cases ho
    rw [State.holds] at ho ⊢
    dsimp only
    rwa [hg.eq_of_ne hi]

/-- A worker that will test the queue before it waits again. -/
def Worker.coming : Worker κ → ℕ
  | lock => 1
  | test => 1
  | wait true => 1
  | ready => 1
  | notify => 1
  | _ => 0

def Call.notifies : Call → Bool
  | notify => true
  | _ => false

/-- The notifications under way: the workers that are coming to the queue, and the calls that have
pushed their task and not yet notified. -/
def State.coming (s : State κ capacity) : ℕ :=
  ∑ i, (s.worker i).coming + s.accepted.countP fun c ↦ (s.call c).notifies

/-- As long as a worker waits, every queued task has a notification under way. -/
def Conserved (s : State κ capacity) : Prop :=
  (∃ i, s.worker i = .wait false) → s.tasks.length ≤ s.coming

theorem coming_setWorker (s : State κ capacity) (i : Fin capacity) (w : Worker κ) :
    (s.setWorker i w).coming + (s.worker i).coming = s.coming + w.coming := by
  have hsum := sum_update_add Worker.coming s.worker i w
  simp only [State.coming, State.setWorker]
  omega

theorem Conserved.empty (h : s.tasks = []) : Conserved s := by
  intro _
  rw [h]
  exact Nat.zero_le _

/-- A worker that changes its place without going to wait. -/
theorem Conserved.setWorker (h : Conserved s) {i : Fin capacity} {w : Worker κ}
    (hw : w ≠ .wait false) {tasks : List κ}
    (hle : tasks.length + (s.worker i).coming ≤ s.tasks.length + w.coming)
    (m : Option (Owner κ capacity)) (taken : List (κ × Fin capacity)) (ran : List κ) :
    Conserved { s.setWorker i w with mutex := m, tasks := tasks, taken := taken, ran := ran } := by
  rintro ⟨j, hj⟩
  have hqueue := h ⟨j, worker_of_setWorker hw hj⟩
  have hcoming := coming_setWorker s i w
  change tasks.length ≤ (s.setWorker i w).coming
  omega

theorem workerStep_conserved {i : Fin capacity} (hinv : Inv s) (h : Conserved s)
    (hstep : workerStep s i = some t) : Conserved t := by
  cases hpc : s.worker i with
  | lock =>
    simp only [workerStep, hpc] at hstep
    split_ifs at hstep
    obtain rfl := Option.some.inj hstep
    exact h.setWorker (by simp) (by rw [hpc]; rfl) _ _ _
  | test =>
    simp only [workerStep, hpc] at hstep
    obtain rfl := Option.some.inj hstep
    split_ifs with hpred
    · exact h.setWorker (by simp) (by rw [hpc]; rfl) _ _ _
    · simp only [Bool.or_eq_true, Bool.not_eq_true', not_or, Bool.not_eq_true,
        Bool.not_eq_false, List.isEmpty_iff] at hpred
      exact .empty hpred.2
  | window =>
    simp only [workerStep, hpc] at hstep
    obtain rfl := Option.some.inj hstep
    exact .empty (hinv.drain.window i hpc)
  | wait notified =>
    cases notified with
    | true =>
      simp only [workerStep, hpc] at hstep
      split_ifs at hstep
      obtain rfl := Option.some.inj hstep
      exact h.setWorker (by simp) (by rw [hpc]; rfl) _ _ _
    | false =>
      simp only [workerStep, hpc] at hstep
      cases hstep
  | ready =>
    simp only [workerStep, hpc] at hstep
    split_ifs at hstep with hleave
    · obtain rfl := Option.some.inj hstep
      rw [Bool.and_eq_true, List.isEmpty_iff] at hleave
      exact .empty hleave.2
    · cases htasks : s.tasks with
      | nil =>
        rw [htasks] at hstep
        cases hstep
      | cons task tasks =>
        rw [htasks] at hstep
        obtain rfl := Option.some.inj hstep
        refine h.setWorker (by simp) ?_ _ _ _
        rw [hpc, htasks]
        rfl
  | run task =>
    simp only [workerStep, hpc] at hstep
    obtain rfl := Option.some.inj hstep
    exact h.setWorker (by simp) (by rw [hpc]; exact Nat.le_succ _) _ _ _
  | notify =>
    simp only [workerStep, hpc] at hstep
    cases hstep
  | returned =>
    simp only [workerStep, hpc] at hstep
    cases hstep

/-- What holds in every run of the pool. -/
structure Runs (s : State κ capacity) : Prop extends Inv s where
  owned : Owned s
  conserved : Conserved s

theorem Runs.init : Runs (init κ capacity) where
  toInv := Inv.init
  owned := .free rfl
  conserved := .empty rfl

section Moves

variable [DecidableEq κ]

theorem setCall_holds {c : κ} {pc : Call} (hpc : (s.call c).holds → pc.holds)
    (o : Owner κ capacity) (ho : s.holds o) : (s.setCall c pc).holds o := by
  cases o with
  | worker i => exact ho
  | call d =>
    by_cases hd : d = c
    · subst hd
      rw [State.holds, setCall_self]
      exact hpc ho
    · rwa [State.holds, setCall_of_ne s hd]

theorem Owned.move (h : Owned s) (hmove : Move s u) : Owned u := by
  cases hmove with
  | stay => exact h
  | acquire i hpc hfree =>
    refine .own rfl ?_
    have hself := setWorker_self s i .test
    rw [State.holds]
    exact congrArg Worker.holds hself
  | pass i hpc => exact h.keep rfl (setWorker_holds fun _ ↦ rfl)
  | fail i hpc => exact h.keep rfl (setWorker_holds fun _ ↦ rfl)
  | block => exact .free rfl
  | leave => exact .free rfl
  | take => exact .free rfl
  | finish i task hpc =>
    have hset : ∀ o, s.holds o → (s.setWorker i .notify).holds o :=
      setWorker_holds (by rw [hpc]; exact id)
    refine h.keep rfl fun o ho ↦ ?_
    cases o <;> exact hset _ ho
  | again i hpc => exact h.keep rfl (setWorker_holds (by rw [hpc]; exact id))
  | enter c hpc hfree =>
    refine .own rfl ?_
    have hself := setCall_self s c .check
    rw [State.holds]
    exact congrArg Call.holds hself
  | reject => exact .free rfl
  | accept c hpc => exact h.keep rfl (setCall_holds fun _ ↦ rfl)
  | push => exact .free rfl
  | exit c hpc => exact h.keep rfl (setCall_holds (by rw [hpc]; exact id))
  | stop => exact h.keep rfl fun o ho ↦ by cases o <;> exact ho
  | destroy => exact h.keep rfl fun o ho ↦ by cases o <;> exact ho

theorem Owned.step {a : Act κ capacity} (h : Owned s) (hstep : step s a = some t) : Owned t := by
  obtain ⟨u, hmove, g, hg, rfl⟩ := step_cases hstep
  exact (h.move hmove).woken hg

theorem countP_setCall (pc : Call) {c : κ} {l : List κ} (hc : c ∉ l) :
    l.countP (fun d ↦ ((s.setCall c pc).call d).notifies) =
      l.countP fun d ↦ (s.call d).notifies := by
  refine List.countP_congr fun d hd ↦ ?_
  have hne : d ≠ c := fun heq ↦ hc (heq ▸ hd)
  rw [setCall_of_ne s hne]

/-- A call is counted once. -/
theorem countP_setCall_mem (pc : Call) {c : κ} {l : List κ} (hl : l.Nodup) (hc : c ∈ l) :
    l.countP (fun d ↦ ((s.setCall c pc).call d).notifies) + (s.call c).notifies.toNat =
      l.countP (fun d ↦ (s.call d).notifies) + pc.notifies.toNat := by
  induction l with
  | nil => cases hc
  | cons d l ih =>
    obtain ⟨hd, hl⟩ := List.nodup_cons.mp hl
    simp only [List.countP_cons]
    by_cases heq : d = c
    · subst heq
      rw [countP_setCall _ hd, setCall_self]
      cases (s.call d).notifies <;> cases pc.notifies <;> simp
    · have hrest := ih hl ((List.mem_cons.mp hc).resolve_left fun h ↦ heq h.symm)
      rw [setCall_of_ne s heq]
      omega

/-- `notify_one` leaves nobody waiting or brings one worker on its way. -/
theorem notifyOne_coming {woken : Option (Fin capacity)} (h : s.notifyOne woken = some t)
    {i : Fin capacity} (hi : t.worker i = .wait false) :
    s.worker i = .wait false ∧ t.tasks = s.tasks ∧ t.coming = s.coming + 1 := by
  cases woken with
  | none =>
    simp only [State.notifyOne] at h
    split_ifs at h with hnone
    obtain rfl := Option.some.inj h
    exact absurd hi (hnone i)
  | some j =>
    simp only [State.notifyOne] at h
    split_ifs at h with hj
    obtain rfl := Option.some.inj h
    have hcoming := coming_setWorker s j (.wait true)
    rw [hj] at hcoming
    exact ⟨worker_of_setWorker (by simp) hi, rfl, hcoming⟩

theorem Conserved.setCall (hinv : Inv s) (h : Conserved s) {c : κ} {pc : Call}
    (hcount : s.call c ≠ .notify) (hpc : pc ≠ .notify) (m : Option (Owner κ capacity)) :
    Conserved { s.setCall c pc with mutex := m } := by
  intro hwait
  have hqueue : s.tasks.length ≤ s.coming := h hwait
  have hsame : (s.setCall c pc).coming = s.coming := by
    have hold : (s.call c).notifies = false := by cases hc : s.call c <;> simp_all [Call.notifies]
    have hnew : pc.notifies = false := by cases pc <;> simp_all [Call.notifies]
    by_cases hc : c ∈ s.accepted
    · have hcount := countP_setCall_mem (s := s) pc hinv.queue.nodup hc
      rw [hold, hnew] at hcount
      simp only [State.coming, State.setCall] at hcount ⊢
      omega
    · have hcount := countP_setCall (s := s) pc hc
      simp only [State.coming, State.setCall] at hcount ⊢
      omega
  change s.tasks.length ≤ (s.setCall c pc).coming
  omega

theorem callStep_conserved {c : κ} (hinv : Inv s) (h : Conserved s)
    (hstep : callStep s c = some t) : Conserved t := by
  cases hpc : s.call c with
  | start =>
    simp only [callStep, hpc] at hstep
    split_ifs at hstep
    obtain rfl := Option.some.inj hstep
    exact h.setCall hinv (by simp [hpc]) (by simp) _
  | check =>
    simp only [callStep, hpc] at hstep
    split_ifs at hstep
    · obtain rfl := Option.some.inj hstep
      exact h.setCall hinv (by simp [hpc]) (by simp) _
    · obtain rfl := Option.some.inj hstep
      exact h.setCall hinv (by simp [hpc]) (by simp) _
  | push =>
    simp only [callStep, hpc] at hstep
    obtain rfl := Option.some.inj hstep
    intro hwait
    have hqueue : s.tasks.length ≤ s.coming := h hwait
    have hc : c ∉ s.accepted := by
      rw [hinv.queue.mem_accepted, hpc]
      simp [Call.accepted]
    have hcount := countP_setCall (s := s) .notify hc
    have hself : ((s.setCall c .notify).call c).notifies = true := by rw [setCall_self]; rfl
    simp only [State.coming, State.setCall] at hcount hself hqueue ⊢
    rw [List.countP_append, hcount, List.countP_singleton, if_pos hself, List.length_append,
      List.length_singleton]
    omega
  | notify =>
    simp only [callStep, hpc] at hstep
    cases hstep
  | done =>
    simp only [callStep, hpc] at hstep
    cases hstep
  | threw =>
    simp only [callStep, hpc] at hstep
    cases hstep

theorem Conserved.step {a : Act κ capacity} (hinv : Inv s) (h : Conserved s)
    (hstep : ThreadPool.step s a = some t) : Conserved t := by
  cases a with
  | worker i => exact workerStep_conserved hinv h hstep
  | workerNotify i woken =>
    simp only [ThreadPool.step] at hstep
    split_ifs at hstep with hpc
    rintro ⟨j, hj⟩
    obtain ⟨hwait, htasks, hcoming⟩ := notifyOne_coming hstep hj
    have hqueue := h ⟨j, worker_of_setWorker (by simp) hwait⟩
    have hlock := coming_setWorker s i .lock
    rw [hpc] at hlock
    have hsame : (s.setWorker i .lock).coming = s.coming := Nat.add_right_cancel hlock
    have htasks : t.tasks = s.tasks := htasks
    rw [htasks, hcoming, hsame]
    omega
  | spurious i =>
    simp only [ThreadPool.step] at hstep
    split_ifs at hstep with hpc
    obtain rfl := Option.some.inj hstep
    exact h.setWorker (by simp) (by rw [hpc]; exact Nat.le_succ _) _ _ _
  | call c => exact callStep_conserved hinv h hstep
  | callNotify c woken =>
    simp only [ThreadPool.step] at hstep
    split_ifs at hstep with hpc
    rintro ⟨j, hj⟩
    obtain ⟨hwait, htasks, hcoming⟩ := notifyOne_coming hstep hj
    have hqueue : s.tasks.length ≤ s.coming := h ⟨j, hwait⟩
    have hc : c ∈ s.accepted := by
      rw [hinv.queue.mem_accepted, hpc]
      rfl
    have hcount := countP_setCall_mem (s := s) .done hinv.queue.nodup hc
    rw [hpc] at hcount
    have htasks : t.tasks = s.tasks := htasks
    rw [htasks, hcoming]
    simp only [State.coming, State.setCall, Call.notifies, Bool.toNat_true, Bool.toNat_false]
      at hcount hqueue ⊢
    omega
  | stop =>
    simp only [ThreadPool.step] at hstep
    split_ifs at hstep
    obtain rfl := Option.some.inj hstep
    exact h
  | notifyAll =>
    obtain ⟨-, rfl⟩ := notifyAll_cases hstep
    rintro ⟨i, hi⟩
    dsimp only at hi
    split_ifs at hi with hwait
    · cases hi
    · exact absurd hi hwait
  | join =>
    simp only [ThreadPool.step] at hstep
    split at hstep
    · split_ifs at hstep
      obtain rfl := Option.some.inj hstep
      exact h
    · cases hstep

theorem Runs.step {a : Act κ capacity} (h : Runs s) (hstep : ThreadPool.step s a = some t) :
    Runs t :=
  ⟨h.toInv.step hstep, h.owned.step hstep, h.conserved.step h.toInv hstep⟩

theorem reachable_runs {P : State κ capacity → Act κ capacity → Prop}
    (h : Reachable step P (ThreadPool.init κ capacity) s) : Runs s :=
  h.invariant Runs.init fun _ _ _ hruns _ hstep ↦ hruns.step hstep

/-- Only the running tasks can go on, or a call that has not begun. -/
structure Stuck (s : State κ capacity) : Prop where
  worker : ∀ i, (∀ task, s.worker i ≠ .run task) → ThreadPool.step s (.worker i) = none
  workerNotify : ∀ i woken, ThreadPool.step s (.workerNotify i woken) = none
  call : ∀ c, s.call c ≠ .start → ThreadPool.step s (.call c) = none
  callNotify : ∀ c woken, ThreadPool.step s (.callNotify c woken) = none

theorem exists_notifyOne (s : State κ capacity) : ∃ woken t, s.notifyOne woken = some t := by
  by_cases hwait : ∃ j, s.worker j = .wait false
  · obtain ⟨j, hj⟩ := hwait
    exact ⟨some j, _, if_pos hj⟩
  · exact ⟨none, _, if_pos (not_exists.mp hwait)⟩

theorem Stuck.worker_ne_notify (h : Stuck s) (i : Fin capacity) : s.worker i ≠ .notify := by
  intro hpc
  obtain ⟨woken, t, ht⟩ := exists_notifyOne (s.setWorker i .lock)
  have hnone := h.workerNotify i woken
  rw [ThreadPool.step, if_pos hpc, ht] at hnone
  cases hnone

theorem Stuck.call_ne_notify (h : Stuck s) (c : κ) : s.call c ≠ .notify := by
  intro hpc
  obtain ⟨woken, t, ht⟩ := exists_notifyOne (s.setCall c .done)
  have hnone := h.callNotify c woken
  rw [ThreadPool.step, if_pos hpc, ht] at hnone
  cases hnone

theorem Stuck.worker_ne (hruns : Runs s) (h : Stuck s) (i : Fin capacity) :
    s.worker i ≠ .test ∧ s.worker i ≠ .window ∧ s.worker i ≠ .ready := by
  have hnone := h.worker i
  refine ⟨fun hpc ↦ ?_, fun hpc ↦ ?_, fun hpc ↦ ?_⟩
  · simp [ThreadPool.step, workerStep, hpc] at hnone
  · simp [ThreadPool.step, workerStep, hpc] at hnone
  · have hready := hruns.drain.ready i hpc
    cases htasks : s.tasks with
    | nil =>
      have hstop := hready.resolve_right fun hne ↦ hne htasks
      simp [ThreadPool.step, workerStep, hpc, htasks, hstop] at hnone
    | cons task tasks => simp [ThreadPool.step, workerStep, hpc, htasks] at hnone

theorem Stuck.call_ne (h : Stuck s) (c : κ) : s.call c ≠ .check ∧ s.call c ≠ .push := by
  have hnone := h.call c
  refine ⟨fun hpc ↦ ?_, fun hpc ↦ ?_⟩
  · simp only [ThreadPool.step, callStep, hpc] at hnone
    split_ifs at hnone <;> simp at hnone
  · simp [ThreadPool.step, callStep, hpc] at hnone

/-- Whoever has the mutex can go on. -/
theorem Stuck.free (hruns : Runs s) (h : Stuck s) : s.mutex = none := by
  by_contra hmutex
  obtain ⟨o, ho⟩ := Option.ne_none_iff_exists'.mp hmutex
  have hholds := hruns.owned o ho
  cases o with
  | worker i =>
    have hne := h.worker_ne hruns i
    rw [State.holds] at hholds
    cases hpc : s.worker i <;> simp_all [Worker.holds]
  | call c =>
    have hne := h.call_ne c
    rw [State.holds] at hholds
    cases hpc : s.call c <;> simp_all [Call.holds]

theorem Stuck.worker_cases (hruns : Runs s) (h : Stuck s) (i : Fin capacity) :
    (∃ task, s.worker i = .run task) ∨ s.worker i = .wait false ∨ s.worker i = .returned := by
  have hfree := h.free hruns
  have hne := h.worker_ne hruns i
  have hnone := h.worker i
  cases hpc : s.worker i with
  | lock => simp [ThreadPool.step, workerStep, hpc, hfree] at hnone
  | test => exact absurd hpc hne.1
  | window => exact absurd hpc hne.2.1
  | ready => exact absurd hpc hne.2.2
  | notify => exact absurd hpc (h.worker_ne_notify i)
  | wait notified =>
    cases notified with
    | true => simp [ThreadPool.step, workerStep, hpc, hfree] at hnone
    | false => exact .inr (.inl rfl)
  | run task => exact .inl ⟨task, rfl⟩
  | returned => exact .inr (.inr rfl)

theorem Stuck.call_cases (h : Stuck s) (c : κ) :
    s.call c = .start ∨ s.call c = .done ∨ s.call c = .threw := by
  have hne := h.call_ne c
  have hnotify := h.call_ne_notify c
  cases hpc : s.call c <;> simp_all

/-- Nobody is on the way to the queue. -/
theorem Stuck.coming (hruns : Runs s) (h : Stuck s) : s.coming = 0 := by
  have hworkers : ∑ i, (s.worker i).coming = 0 := by
    refine Finset.sum_eq_zero fun i _ ↦ ?_
    rcases h.worker_cases hruns i with ⟨task, hpc⟩ | hpc | hpc <;> rw [hpc] <;> rfl
  have hcalls : s.accepted.countP (fun c ↦ (s.call c).notifies) = 0 := by
    refine List.countP_eq_zero.mpr fun c _ ↦ ?_
    rcases h.call_cases c with hpc | hpc | hpc <;> rw [hpc] <;> simp [Call.notifies]
  rw [State.coming, hworkers, hcalls]

theorem Stuck.tasks_of_wait (hruns : Runs s) (h : Stuck s) {i : Fin capacity}
    (hi : s.worker i = .wait false) : s.tasks = [] := by
  have hqueue := hruns.conserved ⟨i, hi⟩
  rw [h.coming hruns] at hqueue
  exact List.length_eq_zero_iff.mp (Nat.le_zero.mp hqueue)

/-- A queue that waits for a worker waits for all of them. -/
theorem work_conserving (h : Reachable step (fun _ _ ↦ True) (init κ capacity) s) :
    (∀ i, s.worker i = .wait false → s.tasks.length ≤ s.coming) ∧
      (Stuck s → s.tasks ≠ [] → ∀ i, ∃ task, s.worker i = .run task) := by
  have hruns := reachable_runs h
  refine ⟨fun i hi ↦ hruns.conserved ⟨i, hi⟩, fun hstuck htasks i ↦ ?_⟩
  rcases hstuck.worker_cases hruns i with hrun | hwait | hreturned
  · exact hrun
  · exact absurd (hstuck.tasks_of_wait hruns hwait) htasks
  · exact absurd (hruns.drain.returned i hreturned).2.1 htasks

theorem workerNotify_cases {i : Fin capacity} {woken : Option (Fin capacity)}
    (h : step s (.workerNotify i woken) = some t) :
    s.worker i = .notify ∧ ∃ g, t = { s with worker := g } := by
  simp only [step] at h
  split_ifs at h with hpc
  obtain ⟨g, -, rfl⟩ := notifyOne_woken h
  exact ⟨hpc, g, rfl⟩

theorem callNotify_cases {c : κ} {woken : Option (Fin capacity)}
    (h : step s (.callNotify c woken) = some t) :
    s.call c = .notify ∧ ∃ g, t = { s.setCall c .done with worker := g } := by
  simp only [step] at h
  split_ifs at h with hpc
  obtain ⟨g, -, rfl⟩ := notifyOne_woken h
  exact ⟨hpc, g, rfl⟩

/-- A task is run by the step of the worker that has it. -/
theorem mem_ran_step {a : Act κ capacity} (h : step s a = some t) {c : κ} (hc : c ∈ t.ran) :
    c ∈ s.ran ∨ ∃ i, a = .worker i ∧ s.worker i = .run c := by
  cases a with
  | worker i =>
    have hran : t.ran = s.ran ∨ ∃ task, s.worker i = .run task ∧ t.ran = s.ran ++ [task] := by
      grind [step, workerStep, State.setWorker]
    rcases hran with hran | ⟨task, hpc, hran⟩
    · exact .inl (hran ▸ hc)
    · rw [hran] at hc
      refine (List.mem_append.mp hc).imp_right fun hc ↦ ⟨i, rfl, ?_⟩
      rwa [List.mem_singleton.mp hc]
  | workerNotify i woken =>
    obtain ⟨-, g, rfl⟩ := workerNotify_cases h
    exact .inl hc
  | callNotify d woken =>
    obtain ⟨-, g, rfl⟩ := callNotify_cases h
    exact .inl hc
  | _ =>
    have hran : t.ran = s.ran := by grind [step, callStep, State.setWorker, State.setCall]
    exact .inl (hran ▸ hc)

theorem ran_subset {a : Act κ capacity} (h : step s a = some t) : s.ran ⊆ t.ran := by
  obtain ⟨u, hmove, g, -, rfl⟩ := step_cases h
  cases hmove with
  | finish => exact List.subset_append_left _ _
  | _ => exact List.Subset.refl _

theorem taken_subset {a : Act κ capacity} (h : step s a = some t) : s.taken ⊆ t.taken := by
  obtain ⟨u, hmove, g, -, rfl⟩ := step_cases h
  cases hmove with
  | take => exact List.subset_append_left _ _
  | _ => exact List.Subset.refl _

theorem call_start_step {a : Act κ capacity} {c : κ} (h : step s a = some t) (ha : a ≠ .call c)
    (hc : s.call c = .start) : t.call c = .start := by
  cases a with
  | worker i =>
    have hcall : t.call = s.call := by grind [step, workerStep, State.setWorker]
    rwa [hcall]
  | call d =>
    have hcall : ∃ pc, t.call = Function.update s.call d pc := by
      grind [step, callStep, State.setCall]
    obtain ⟨pc, hcall⟩ := hcall
    have hne : c ≠ d := fun heq ↦ ha (heq ▸ rfl)
    rwa [hcall, Function.update_of_ne hne]
  | workerNotify i woken =>
    obtain ⟨-, g, rfl⟩ := workerNotify_cases h
    exact hc
  | callNotify d woken =>
    obtain ⟨hpc, g, rfl⟩ := callNotify_cases h
    have hne : c ≠ d := by
      rintro rfl
      rw [hc] at hpc
      cases hpc
    exact (setCall_of_ne s hne .done).trans hc
  | _ =>
    have hcall : t.call = s.call := by grind [step, State.setWorker]
    rwa [hcall]

/-- The destructor has not begun. -/
structure Running (s : State κ capacity) : Prop where
  stop : s.stopPool = false
  destructor : s.destructor = .idle
  call : ∀ c, s.call c ≠ .threw

theorem Running.step {a : Act κ capacity} (h : Running s) (ha : a ≠ .stop)
    (hstep : ThreadPool.step s a = some t) : Running t := by
  obtain ⟨hstop, hidle, hcall⟩ := h
  cases a with
  | call c =>
    have hcases : t.stopPool = s.stopPool ∧ t.destructor = s.destructor ∧
        ∃ pc, pc ≠ Call.threw ∧ t.call = Function.update s.call c pc := by
      grind [ThreadPool.step, callStep, State.setCall]
    obtain ⟨hstop', hidle', pc, hpc, hcall'⟩ := hcases
    refine ⟨hstop'.trans hstop, hidle'.trans hidle, fun d ↦ ?_⟩
    rw [hcall']
    by_cases hd : d = c
    · rwa [hd, Function.update_self]
    · rw [Function.update_of_ne hd]
      exact hcall d
  | workerNotify i woken =>
    obtain ⟨-, g, rfl⟩ := workerNotify_cases hstep
    exact ⟨hstop, hidle, hcall⟩
  | callNotify c woken =>
    obtain ⟨-, g, rfl⟩ := callNotify_cases hstep
    exact ⟨hstop, hidle, fun d hd ↦ hcall d (call_of_setCall (by simp) hd)⟩
  | stop => exact absurd rfl ha
  | _ =>
    have hsame : t.stopPool = s.stopPool ∧ t.destructor = s.destructor ∧ t.call = s.call := by
      grind [ThreadPool.step, workerStep, State.setWorker]
    exact ⟨hsame.1.trans hstop, hsame.2.1.trans hidle, hsame.2.2 ▸ hcall⟩

/-- The only worker runs one task while the other one is queued. -/
theorem work_conserving_one : ∃ s : State Bool 1, Stuck s ∧ s.tasks = [true] ∧
    ∀ i, ∃ task, s.worker i = .run task := by
  have hrun : ∃ s : State Bool 1, exec step (init Bool 1) [.worker 0, .worker 0, .worker 0,
      .call false, .call false, .call false, .callNotify false (some 0), .worker 0, .worker 0,
      .worker 0, .call true, .call true, .call true, .callNotify true none] = some s ∧
        s.worker 0 = .run false ∧ s.call false = .done ∧ s.call true = .done ∧ s.tasks = [true] :=
    ⟨_, rfl, rfl, rfl, rfl, rfl⟩
  obtain ⟨s, hs, hworker, hfalse, htrue, htasks⟩ := hrun
  have hcall (c : Bool) : s.call c = .done := by cases c <;> assumption
  have hstuck : Stuck s := by
    refine ⟨fun i hi ↦ ?_, fun i woken ↦ ?_, fun c _ ↦ ?_, fun c woken ↦ ?_⟩
    · rw [Fin.fin_one_eq_zero i] at hi
      exact absurd hworker (hi false)
    · simp [step, Fin.fin_one_eq_zero i, hworker]
    · simp [step, callStep, hcall]
    · simp [step, hcall]
  exact ⟨s, hstuck, htasks, (work_conserving (.of_exec hs)).2 hstuck (by simp [htasks])⟩

end Moves

end ShannonNet.Utils.ThreadPool
