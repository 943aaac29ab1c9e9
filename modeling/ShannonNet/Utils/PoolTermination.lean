import ShannonNet.Utils.PoolProgress

namespace ShannonNet.Utils.ThreadPool

open Library.Runs

variable {κ : Type} {capacity : ℕ} {s t : State κ capacity}

/-- The steps without spurious wake-ups. -/
def progress [DecidableEq κ] (s : State κ capacity) : Act κ capacity → Option (State κ capacity)
  | .spurious _ => none
  | a => step s a

/-- What a worker can still do before it waits, the wake-up its notification causes included. -/
def Worker.cost : Worker κ → ℕ
  | wait false => 0
  | returned => 0
  | window => 1
  | ready => 1
  | test => 2
  | lock => 3
  | wait true => 3
  | notify => 7
  | run _ => 8

def Call.cost : Call → ℕ
  | done => 0
  | threw => 0
  | notify => 4
  | push => 13
  | check => 14
  | start => 15

def Destructor.cost (capacity : ℕ) : Destructor → ℕ
  | idle => 4 * capacity + 2
  | stopped => 4 * capacity + 1
  | joining thread => capacity - thread

def State.cost [Fintype κ] (s : State κ capacity) : ℕ :=
  ∑ i, (s.worker i).cost + ∑ c, (s.call c).cost + 8 * s.tasks.length + s.destructor.cost capacity

theorem worker_cost {i : Fin capacity} (h : workerStep s i = some t) :
    ∃ w, t.worker = Function.update s.worker i w ∧ t.call = s.call ∧
      t.destructor = s.destructor ∧
      w.cost + 8 * t.tasks.length < (s.worker i).cost + 8 * s.tasks.length := by
  cases hpc : s.worker i with
  | lock =>
    simp only [workerStep, hpc] at h
    split_ifs at h
    obtain rfl := Option.some.inj h
    exact ⟨.test, rfl, rfl, rfl, by simp [State.setWorker, Worker.cost]⟩
  | test =>
    simp only [workerStep, hpc] at h
    obtain rfl := Option.some.inj h
    refine ⟨_, rfl, rfl, rfl, ?_⟩
    split_ifs <;> simp [State.setWorker, Worker.cost]
  | window =>
    simp only [workerStep, hpc] at h
    obtain rfl := Option.some.inj h
    exact ⟨.wait false, rfl, rfl, rfl, by simp [State.setWorker, Worker.cost]⟩
  | wait notified =>
    cases notified with
    | true =>
      simp only [workerStep, hpc] at h
      split_ifs at h
      obtain rfl := Option.some.inj h
      exact ⟨.test, rfl, rfl, rfl, by simp [State.setWorker, Worker.cost]⟩
    | false =>
      simp only [workerStep, hpc] at h
      cases h
  | ready =>
    simp only [workerStep, hpc] at h
    split_ifs at h
    · obtain rfl := Option.some.inj h
      exact ⟨.returned, rfl, rfl, rfl, by simp [State.setWorker, Worker.cost]⟩
    · cases htasks : s.tasks with
      | nil =>
        rw [htasks] at h
        cases h
      | cons task tasks =>
        rw [htasks] at h
        obtain rfl := Option.some.inj h
        refine ⟨.run task, rfl, rfl, rfl, ?_⟩
        simp only [Worker.cost, List.length_cons]
        omega
  | run task =>
    simp only [workerStep, hpc] at h
    obtain rfl := Option.some.inj h
    exact ⟨.notify, rfl, rfl, rfl, by simp [State.setWorker, Worker.cost]⟩
  | notify =>
    simp only [workerStep, hpc] at h
    cases h
  | returned =>
    simp only [workerStep, hpc] at h
    cases h

section Moves

variable [DecidableEq κ]

theorem call_cost {c : κ} (h : callStep s c = some t) :
    ∃ pc, t.call = Function.update s.call c pc ∧ t.worker = s.worker ∧
      t.destructor = s.destructor ∧
      pc.cost + 8 * t.tasks.length < (s.call c).cost + 8 * s.tasks.length := by
  cases hpc : s.call c with
  | start =>
    simp only [callStep, hpc] at h
    split_ifs at h
    obtain rfl := Option.some.inj h
    exact ⟨.check, rfl, rfl, rfl, by simp [State.setCall, Call.cost]⟩
  | check =>
    simp only [callStep, hpc] at h
    split_ifs at h
    · obtain rfl := Option.some.inj h
      exact ⟨.threw, rfl, rfl, rfl, by simp [State.setCall, Call.cost]⟩
    · obtain rfl := Option.some.inj h
      exact ⟨.push, rfl, rfl, rfl, by simp [State.setCall, Call.cost]⟩
  | push =>
    simp only [callStep, hpc] at h
    obtain rfl := Option.some.inj h
    refine ⟨.notify, rfl, rfl, rfl, ?_⟩
    simp only [Call.cost, List.length_append, List.length_singleton]
    omega
  | notify =>
    simp only [callStep, hpc] at h
    cases h
  | done =>
    simp only [callStep, hpc] at h
    cases h
  | threw =>
    simp only [callStep, hpc] at h
    cases h

/-- `notify_one` costs the way of one worker back into the wait set. -/
theorem notifyOne_cost {woken : Option (Fin capacity)} (h : s.notifyOne woken = some t) :
    ∑ i, (t.worker i).cost ≤ ∑ i, (s.worker i).cost + 3 := by
  cases woken with
  | none =>
    simp only [State.notifyOne] at h
    split_ifs at h
    obtain rfl := Option.some.inj h
    exact Nat.le_add_right _ _
  | some j =>
    simp only [State.notifyOne] at h
    split_ifs at h with hj
    obtain rfl := Option.some.inj h
    have hsum := sum_update_add Worker.cost s.worker j (.wait true)
    rw [hj] at hsum
    simp only [State.setWorker, Worker.cost, Nat.add_zero] at hsum ⊢
    exact hsum.le

theorem notifyAll_cost (f : Fin capacity → Worker κ) :
    ∑ i, (if f i = .wait false then Worker.wait true else f i).cost ≤
      ∑ i, (f i).cost + 3 * capacity := by
  have hle : ∀ i ∈ Finset.univ, (if f i = .wait false then Worker.wait true else f i).cost ≤
      (f i).cost + 3 := by
    intro i _
    split_ifs with hi
    · rw [hi]
      rfl
    · exact Nat.le_add_right _ _
  refine (Finset.sum_le_sum hle).trans_eq ?_
  rw [Finset.sum_add_distrib, Finset.sum_const, Finset.card_univ, Fintype.card_fin]
  simp [Nat.mul_comm]

theorem progress_cost [Fintype κ] {a : Act κ capacity} (h : progress s a = some t) :
    t.cost < s.cost := by
  cases a with
  | worker i =>
    obtain ⟨w, hworker, hcall, hdestructor, hlt⟩ := worker_cost h
    have hsum := sum_update_add Worker.cost s.worker i w
    simp only [State.cost, hworker, hcall, hdestructor]
    omega
  | workerNotify i woken =>
    simp only [progress, step] at h
    split_ifs at h with hpc
    have hle := notifyOne_cost h
    obtain ⟨g, -, rfl⟩ := notifyOne_woken h
    have hsum := sum_update_add Worker.cost s.worker i .lock
    rw [hpc] at hsum
    simp only [State.cost, State.setWorker, Worker.cost] at hle hsum ⊢
    omega
  | spurious i => cases h
  | call c =>
    obtain ⟨pc, hcall, hworker, hdestructor, hlt⟩ := call_cost h
    have hsum := sum_update_add Call.cost s.call c pc
    simp only [State.cost, hworker, hcall, hdestructor]
    omega
  | callNotify c woken =>
    simp only [progress, step] at h
    split_ifs at h with hpc
    have hle := notifyOne_cost h
    obtain ⟨g, -, rfl⟩ := notifyOne_woken h
    have hsum := sum_update_add Call.cost s.call c .done
    rw [hpc] at hsum
    simp only [State.cost, State.setCall, Call.cost] at hle hsum ⊢
    omega
  | stop =>
    simp only [progress, step] at h
    split_ifs at h with hpc
    obtain rfl := Option.some.inj h
    simp only [State.cost, hpc, Destructor.cost]
    omega
  | notifyAll =>
    obtain ⟨hpc, rfl⟩ := notifyAll_cases h
    have hle := notifyAll_cost s.worker
    simp only [State.cost, hpc, Destructor.cost]
    omega
  | join =>
    simp only [progress, step] at h
    cases hpc : s.destructor with
    | joining thread =>
      simp only [hpc] at h
      split_ifs at h with hthread
      obtain rfl := Option.some.inj h
      simp only [State.cost, hpc, Destructor.cost]
      omega
    | idle =>
      simp only [hpc] at h
      cases h
    | stopped =>
      simp only [hpc] at h
      cases h

theorem returned_step {a : Act κ capacity} {i : Fin capacity} (hi : s.worker i = .returned)
    (h : step s a = some t) : t.worker i = .returned := by
  obtain ⟨u, hmove, g, hg, rfl⟩ := step_cases h
  have hset {j : Fin capacity} {w : Worker κ} (hj : s.worker j ≠ .returned) :
      (s.setWorker j w).worker i = .returned := by
    have hne : i ≠ j := fun heq ↦ hj (heq ▸ hi)
    rw [setWorker_of_ne s hne, hi]
  have hu : u.worker i = .returned := by
    cases hmove with
    | acquire j hpc => exact hset (by rcases hpc with hpc | hpc <;> simp [hpc])
    | pass j hpc => exact hset (by simp [hpc])
    | fail j hpc => exact hset (by simp [hpc])
    | block j hpc => exact hset (by simp [hpc])
    | leave j hpc => exact hset (by simp [hpc])
    | take j task tasks hpc => exact hset (by simp [hpc])
    | finish j task hpc => exact hset (by simp [hpc])
    | again j hpc => exact hset (by simp [hpc])
    | _ => exact hi
  dsimp only
  rw [hg.eq_of_ne (by simp [hu]), hu]

/-- The destructor has joined the threads before `thread`. -/
def Joined (s : State κ capacity) : Prop :=
  ∀ thread, s.destructor = .joining thread →
    thread ≤ capacity ∧ ∀ i : Fin capacity, i < thread → s.worker i = .returned

theorem joinStep_cases (h : step s .join = some t) :
    ∃ thread : Fin capacity, s.destructor = .joining thread ∧ s.worker thread = .returned ∧
      t = { s with destructor := .joining (thread + 1) } := by
  simp only [step] at h
  cases hpc : s.destructor with
  | joining thread =>
    simp only [hpc] at h
    split_ifs at h with hthread hreturned
    exact ⟨⟨thread, hthread⟩, rfl, hreturned, (Option.some.inj h).symm⟩
  | idle =>
    simp only [hpc] at h
    cases h
  | stopped =>
    simp only [hpc] at h
    cases h

theorem Joined.step {a : Act κ capacity} (h : Joined s) (hstep : ThreadPool.step s a = some t) :
    Joined t := by
  intro thread hthread
  have hkeep (hs : s.destructor = .joining thread) :
      thread ≤ capacity ∧ ∀ i : Fin capacity, i < thread → t.worker i = .returned :=
    ⟨(h thread hs).1, fun i hi ↦ returned_step ((h thread hs).2 i hi) hstep⟩
  cases a with
  | worker i => exact hkeep (workerStep_destructor hstep ▸ hthread)
  | call c => exact hkeep (callStep_destructor hstep ▸ hthread)
  | workerNotify i woken =>
    obtain ⟨-, g, rfl⟩ := workerNotify_cases hstep
    exact hkeep hthread
  | callNotify c woken =>
    obtain ⟨-, g, rfl⟩ := callNotify_cases hstep
    exact hkeep hthread
  | spurious i =>
    refine hkeep ?_
    simp only [ThreadPool.step] at hstep
    split_ifs at hstep
    obtain rfl := Option.some.inj hstep
    exact hthread
  | stop =>
    simp only [ThreadPool.step] at hstep
    split_ifs at hstep
    obtain rfl := Option.some.inj hstep
    cases hthread
  | notifyAll =>
    obtain ⟨-, rfl⟩ := notifyAll_cases hstep
    cases hthread
    exact ⟨Nat.zero_le _, fun i hi ↦ absurd hi (Nat.not_lt_zero _)⟩
  | join =>
    obtain ⟨last, hlast, hreturned, rfl⟩ := joinStep_cases hstep
    cases hthread
    refine ⟨last.isLt, fun i hi ↦ ?_⟩
    rcases Nat.lt_succ_iff_lt_or_eq.mp hi with hlt | heq
    · exact (h _ hlast).2 i hlt
    · rwa [Fin.ext heq]

theorem reachable_joined {P : State κ capacity → Act κ capacity → Prop}
    (h : Reachable step P (init κ capacity) s) : Joined s :=
  h.invariant (fun _ hthread ↦ by cases hthread) fun _ _ _ hjoined _ hstep ↦ hjoined.step hstep

/-- Every call has come to its end, and every accepted task has been run. -/
structure Ended (s : State κ capacity) : Prop where
  call : ∀ c, s.call c = .done ∨ s.call c = .threw
  accepted : ∀ c, c ∈ s.accepted ↔ s.call c = .done
  tasks : s.tasks = []
  ran : s.ran.Perm s.accepted

/-- The destructor has joined every thread. -/
structure Finished (s : State κ capacity) : Prop where
  destructor : s.destructor = .joining capacity
  returned : ∀ i, s.worker i = .returned

omit [DecidableEq κ] in
theorem Inv.ran_perm (h : Inv s) (hempty : s.tasks = [])
    (hidle : ∀ i task, s.worker i ≠ .run task) : s.ran.Perm s.accepted := by
  have horder : s.accepted = s.taken.map Prod.fst := by
    rw [h.queue.order, hempty, List.append_nil]
  refine (List.perm_ext_iff_of_nodup h.exec.nodup h.queue.nodup).mpr fun c ↦ ⟨fun hc ↦ ?_, ?_⟩
  · rw [horder]
    exact h.exec.ran_taken c hc
  · intro hc
    rw [horder] at hc
    obtain ⟨p, hp, rfl⟩ := List.mem_map.mp hc
    exact (h.exec.taken p hp).resolve_right (hidle p.2 p.1)

/-- No step but a spurious wake-up is left. -/
def Over (s : State κ capacity) : Prop := ∀ a, progress s a = none

theorem Over.stuck (h : Over s) : Stuck s :=
  ⟨fun i _ ↦ h (.worker i), fun i woken ↦ h (.workerNotify i woken), fun c _ ↦ h (.call c),
    fun c woken ↦ h (.callNotify c woken)⟩

theorem Over.worker_cases (hruns : Runs s) (h : Over s) (i : Fin capacity) :
    s.worker i = .wait false ∨ s.worker i = .returned := by
  refine (h.stuck.worker_cases hruns i).resolve_left ?_
  rintro ⟨task, hpc⟩
  have hnone := h (.worker i)
  simp [progress, step, workerStep, hpc] at hnone

theorem Over.ended (hcapacity : 0 < capacity) (hruns : Runs s) (h : Over s) : Ended s := by
  have hstuck := h.stuck
  have hcall : ∀ c, s.call c = .done ∨ s.call c = .threw := by
    intro c
    refine (hstuck.call_cases c).resolve_left fun hpc ↦ ?_
    have hnone := h (.call c)
    simp [progress, step, callStep, hpc, hstuck.free hruns] at hnone
  have htasks : s.tasks = [] := by
    rcases h.worker_cases hruns ⟨0, hcapacity⟩ with hwait | hreturned
    · exact hstuck.tasks_of_wait hruns hwait
    · exact (hruns.drain.returned _ hreturned).2.1
  have hidle (i : Fin capacity) (task : κ) : s.worker i ≠ .run task := by
    rcases h.worker_cases hruns i with hpc | hpc <;> simp [hpc]
  refine ⟨hcall, fun c ↦ ?_, htasks, hruns.ran_perm htasks hidle⟩
  rw [hruns.mem_accepted]
  exact or_iff_right (hstuck.call_ne_notify c)

/-- The destructor ends, or waits for a worker that nobody will notify. -/
theorem Over.destructor (hruns : Runs s) (hjoined : Joined s) (h : Over s) :
    Finished s ∨ ∃ i : Fin capacity, s.destructor = .joining i ∧ s.worker i = .wait false := by
  cases hpc : s.destructor with
  | idle =>
    have hnone := h .stop
    simp [progress, step, hpc] at hnone
  | stopped =>
    have hnone := h .notifyAll
    simp [progress, step, hpc] at hnone
  | joining thread =>
    obtain ⟨hle, hreturned⟩ := hjoined thread hpc
    rcases Nat.lt_or_eq_of_le hle with hlt | rfl
    · refine .inr ⟨⟨thread, hlt⟩, rfl, ?_⟩
      refine (h.worker_cases hruns _).resolve_right fun hi ↦ ?_
      have hnone := h .join
      simp [progress, step, hpc, hlt, hi] at hnone
    · exact .inl ⟨hpc, fun i ↦ hreturned i i.isLt⟩

/-- Without spurious wake-ups every run of the pool with its destructor comes to an end, with every
accepted task run. The destructor returns, unless `notify_all` found a worker in the window. -/
theorem pool_shuts_down [Fintype κ] (hcapacity : 0 < capacity) :
    (∀ acts (s : State κ capacity), exec progress (init κ capacity) acts = some s →
      acts.length ≤ 7 * capacity + 15 * Fintype.card κ + 2) ∧
    (∀ s : State κ capacity, Reachable step (fun _ _ ↦ True) (init κ capacity) s → Over s →
      Ended s ∧ (Finished s ∨
        ∃ i : Fin capacity, s.destructor = .joining i ∧ s.worker i = .wait false)) ∧
    ∀ s : State κ capacity, Reachable step NoWindow (init κ capacity) s → Over s →
      Ended s ∧ Finished s := by
  refine ⟨fun acts s h ↦ ?_, fun s h hover ↦ ?_, fun s h hover ↦ ?_⟩
  · have hle := exec_length_le (I := fun _ ↦ True) (P := fun _ _ ↦ True) (μ := State.cost)
      (fun _ _ _ _ hstep ↦ ⟨trivial, trivial, progress_cost hstep⟩) trivial h
    refine hle.trans_eq ?_
    simp [State.cost, init, Worker.cost, Call.cost, Destructor.cost]
    omega
  · have hruns := reachable_runs h
    exact ⟨hover.ended hcapacity hruns, hover.destructor hruns (reachable_joined h)⟩
  · have hruns := reachable_runs h
    refine ⟨hover.ended hcapacity hruns, ?_⟩
    refine (hover.destructor hruns (reachable_joined h)).resolve_right ?_
    rintro ⟨i, hpc, hwait⟩
    exact (awake_of_reachable h hpc).waiting i hwait

/-- The run of one task, to the end of the destructor. -/
theorem pool_shuts_down_one : ∃ s : State Unit 1, Over s ∧ Ended s ∧ Finished s ∧ s.ran = [()] := by
  have hrun : ∃ s : State Unit 1, exec step (init Unit 1) [.worker 0, .worker 0, .worker 0,
      .call (), .call (), .stop, .call (), .callNotify () (some 0), .notifyAll, .worker 0,
      .worker 0, .worker 0, .worker 0, .workerNotify 0 none, .worker 0, .worker 0, .worker 0,
      .join] = some s ∧ s.worker 0 = .returned ∧ s.call () = .done ∧
        s.destructor = .joining 1 ∧ s.ran = [()] :=
    ⟨_, rfl, rfl, rfl, rfl, rfl⟩
  obtain ⟨s, hs, hworker, hcall, hdestructor, hran⟩ := hrun
  have hover : Over s := by
    intro a
    cases a with
    | worker i => simp [progress, step, workerStep, Fin.fin_one_eq_zero i, hworker]
    | workerNotify i woken => simp [progress, step, Fin.fin_one_eq_zero i, hworker]
    | spurious i => rfl
    | call c => simp [progress, step, callStep, hcall]
    | callNotify c woken => simp [progress, step, hcall]
    | stop => simp [progress, step, hdestructor]
    | notifyAll => simp [progress, step, hdestructor]
    | join => simp [progress, step, hdestructor]
  obtain ⟨hended, hend⟩ :=
    (pool_shuts_down (κ := Unit) (show 0 < 1 from Nat.one_pos)).2.1 s (.of_exec hs) hover
  refine ⟨s, hover, hended, hend.resolve_right ?_, hran⟩
  rintro ⟨i, -, hi⟩
  rw [Fin.fin_one_eq_zero i, hworker] at hi
  cases hi

end Moves

end ShannonNet.Utils.ThreadPool
