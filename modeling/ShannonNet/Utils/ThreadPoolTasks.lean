import ShannonNet.Utils.ThreadPool
import Mathlib.Data.List.Nodup
import Mathlib.Data.Fin.Basic

namespace ShannonNet.Utils.ThreadPool

open Library.Runs

variable {κ : Type} {capacity : ℕ}

def Worker.holds : Worker κ → Bool
  | test => true
  | window => true
  | ready => true
  | _ => false

def Call.holds : Call → Bool
  | check => true
  | push => true
  | _ => false

def State.holds (s : State κ capacity) : Owner κ capacity → Bool
  | .worker i => (s.worker i).holds
  | .call c => (s.call c).holds

/-- Whoever is in a critical section owns the mutex. -/
def Locks (s : State κ capacity) : Prop := ∀ o, s.holds o → s.mutex = some o

section Mutex

variable {s u : State κ capacity} {o : Owner κ capacity}

theorem Locks.unique (h : Locks s) {o' : Owner κ capacity} (ho : s.holds o) (ho' : s.holds o') :
    o = o' :=
  Option.some.inj ((h o ho).symm.trans (h o' ho'))

theorem Locks.keep (h : Locks s) (hframe : ∀ o' ≠ o, u.holds o' → s.holds o')
    (ho : u.holds o → s.holds o) (hmutex : u.mutex = s.mutex) : Locks u := by
  intro o' ho'
  rw [hmutex]
  by_cases heq : o' = o
  · subst heq
    exact h o' (ho ho')
  · exact h o' (hframe o' heq ho')

theorem Locks.acquire (h : Locks s) (hframe : ∀ o' ≠ o, u.holds o' → s.holds o')
    (hfree : s.mutex = none) (hmutex : u.mutex = some o) : Locks u := by
  intro o' ho'
  by_cases heq : o' = o
  · rw [hmutex, heq]
  · have howner := h o' (hframe o' heq ho')
    rw [hfree] at howner
    cases howner

theorem Locks.release (h : Locks s) (hframe : ∀ o' ≠ o, u.holds o' → s.holds o')
    (ho : s.holds o) (hout : u.holds o = false) : Locks u := by
  intro o' ho'
  by_cases heq : o' = o
  · rw [heq, hout] at ho'
    cases ho'
  · exact absurd (h.unique (hframe o' heq ho') ho) heq

theorem setWorker_self (s : State κ capacity) (i : Fin capacity) (w : Worker κ) :
    (s.setWorker i w).worker i = w := Function.update_self _ _ _

theorem setWorker_of_ne (s : State κ capacity) {i j : Fin capacity} (hj : j ≠ i) (w : Worker κ) :
    (s.setWorker i w).worker j = s.worker j := Function.update_of_ne hj _ _

theorem holds_setWorker (s : State κ capacity) (i : Fin capacity) (w : Worker κ) :
    ∀ o ≠ .worker i, (s.setWorker i w).holds o → s.holds o := by
  intro o hne ho
  cases o with
  | worker j =>
    have hj : j ≠ i := fun h ↦ hne (congrArg _ h)
    rwa [State.holds, setWorker_of_ne s hj] at ho
  | call c => exact ho

theorem Locks.woken (h : Locks u) {g : Fin capacity → Worker κ} (hg : Woken u.worker g) :
    Locks { u with worker := g } := by
  intro o ho
  cases o with
  | worker i =>
    refine h (.worker i) ?_
    rcases hg i with heq | ⟨-, heq⟩
    · rwa [State.holds, ← heq]
    · rw [State.holds] at ho
      dsimp only at ho
      rw [heq] at ho
      cases ho
  | call c => exact h (.call c) ho

variable [DecidableEq κ]

theorem setCall_self (s : State κ capacity) (c : κ) (pc : Call) : (s.setCall c pc).call c = pc :=
  Function.update_self _ _ _

theorem setCall_of_ne (s : State κ capacity) {c d : κ} (hd : d ≠ c) (pc : Call) :
    (s.setCall c pc).call d = s.call d := Function.update_of_ne hd _ _

theorem holds_setCall (s : State κ capacity) (c : κ) (pc : Call) :
    ∀ o ≠ .call c, (s.setCall c pc).holds o → s.holds o := by
  intro o hne ho
  cases o with
  | worker j => exact ho
  | call d =>
    have hd : d ≠ c := fun h ↦ hne (congrArg _ h)
    rwa [State.holds, setCall_of_ne s hd] at ho

theorem Locks.move (h : Locks s) (hmove : Move s u) : Locks u := by
  have hin {i : Fin capacity} {w : Worker κ} (hpc : s.worker i = w) (hw : w.holds) :
      s.holds (.worker i) := by rwa [State.holds, hpc]
  have hinCall {c : κ} {pc : Call} (hpc : s.call c = pc) (hw : pc.holds) :
      s.holds (.call c) := by rwa [State.holds, hpc]
  have hout (i : Fin capacity) {w : Worker κ} (hw : w.holds = false) :
      (s.setWorker i w).holds (.worker i) = false := by rwa [State.holds, setWorker_self]
  have houtCall (c : κ) {pc : Call} (hw : pc.holds = false) :
      (s.setCall c pc).holds (.call c) = false := by rwa [State.holds, setCall_self]
  cases hmove with
  | stay => exact h
  | acquire i hpc hfree => exact h.acquire (holds_setWorker s i _) hfree rfl
  | pass i hpc => exact h.keep (holds_setWorker s i _) (fun _ ↦ hin hpc rfl) rfl
  | fail i hpc => exact h.keep (holds_setWorker s i _) (fun _ ↦ hin hpc rfl) rfl
  | block i hpc => exact h.release (holds_setWorker s i _) (hin hpc rfl) (hout i rfl)
  | leave i hpc => exact h.release (holds_setWorker s i _) (hin hpc rfl) (hout i rfl)
  | take i task tasks hpc => exact h.release (holds_setWorker s i _) (hin hpc rfl) (hout i rfl)
  | finish i task hpc =>
    exact h.keep (holds_setWorker s i _) (fun ho ↦ absurd ((hout i rfl).symm.trans ho) (by simp))
      rfl
  | again i hpc =>
    exact h.keep (holds_setWorker s i _) (fun ho ↦ absurd ((hout i rfl).symm.trans ho) (by simp))
      rfl
  | enter c hpc hfree => exact h.acquire (holds_setCall s c _) hfree rfl
  | reject c hpc => exact h.release (holds_setCall s c _) (hinCall hpc rfl) (houtCall c rfl)
  | accept c hpc => exact h.keep (holds_setCall s c _) (fun _ ↦ hinCall hpc rfl) rfl
  | push c hpc => exact h.release (holds_setCall s c _) (hinCall hpc rfl) (houtCall c rfl)
  | exit c hpc =>
    exact h.keep (holds_setCall s c _)
      (fun ho ↦ absurd ((houtCall c rfl).symm.trans ho) (by simp)) rfl
  | stop => exact h
  | destroy => exact h

end Mutex

section Tasks

variable {s u : State κ capacity}

def Call.accepted : Call → Bool
  | notify => true
  | done => true
  | _ => false

/-- The queue holds what was accepted and is not yet taken. -/
structure Queue (s : State κ capacity) : Prop where
  order : s.accepted = s.taken.map Prod.fst ++ s.tasks
  mem_accepted : ∀ c, c ∈ s.accepted ↔ (s.call c).accepted
  nodup : s.accepted.Nodup

/-- A worker returns from an empty queue, and no call adds to it afterwards. -/
structure Drain (s : State κ capacity) : Prop where
  window : ∀ i, s.worker i = .window → s.tasks = []
  ready : ∀ i, s.worker i = .ready → s.stopPool = true ∨ s.tasks ≠ []
  returned : ∀ i, s.worker i = .returned →
    s.stopPool = true ∧ s.tasks = [] ∧ ∀ c, s.call c ≠ .push

/-- A task that was taken has been run or is being run by the worker that took it. -/
structure Exec (s : State κ capacity) : Prop where
  running : ∀ i task, s.worker i = .run task → (task, i) ∈ s.taken ∧ task ∉ s.ran
  nodup : s.ran.Nodup
  ran_taken : ∀ task ∈ s.ran, task ∈ s.taken.map Prod.fst
  taken : ∀ p ∈ s.taken, p.1 ∈ s.ran ∨ s.worker p.2 = .run p.1

theorem worker_of_setWorker {i j : Fin capacity} {w v : Worker κ} (hne : w ≠ v)
    (h : (s.setWorker i w).worker j = v) : s.worker j = v := by
  by_cases hj : j = i
  · subst hj
    rw [setWorker_self] at h
    exact absurd h hne
  · rwa [setWorker_of_ne s hj] at h

theorem Woken.eq_of_eq {f g : Fin capacity → Worker κ} (hg : Woken f g) {i : Fin capacity}
    {w : Worker κ} (hne : Worker.wait true ≠ w) (h : g i = w) : f i = w := by
  rcases hg i with heq | ⟨-, heq⟩
  · rwa [← heq]
  · exact absurd (heq.symm.trans h) hne

theorem Queue.nodup_taken (h : Queue s) : (s.taken.map Prod.fst).Nodup :=
  (List.nodup_append.mp (h.order ▸ h.nodup)).1

theorem Queue.taken_unique (h : Queue s) {c : κ} {i j : Fin capacity} (hi : (c, i) ∈ s.taken)
    (hj : (c, j) ∈ s.taken) : i = j :=
  congrArg Prod.snd (List.inj_on_of_nodup_map h.nodup_taken hi hj rfl)

theorem Queue.setMutex (h : Queue s) (m : Option (Owner κ capacity)) :
    Queue { s with mutex := m } :=
  ⟨h.order, h.mem_accepted, h.nodup⟩

theorem Drain.setMutex (h : Drain s) (m : Option (Owner κ capacity)) :
    Drain { s with mutex := m } :=
  ⟨h.window, h.ready, h.returned⟩

theorem Exec.setMutex (h : Exec s) (m : Option (Owner κ capacity)) :
    Exec { s with mutex := m } :=
  ⟨h.running, h.nodup, h.ran_taken, h.taken⟩

theorem Drain.woken (h : Drain u) {g : Fin capacity → Worker κ} (hg : Woken u.worker g) :
    Drain { u with worker := g } where
  window i hi := h.window i (hg.eq_of_eq (by simp) hi)
  ready i hi := h.ready i (hg.eq_of_eq (by simp) hi)
  returned i hi := h.returned i (hg.eq_of_eq (by simp) hi)

theorem Exec.woken (h : Exec u) {g : Fin capacity → Worker κ} (hg : Woken u.worker g) :
    Exec { u with worker := g } where
  running i task hi := h.running i task (hg.eq_of_eq (by simp) hi)
  nodup := h.nodup
  ran_taken := h.ran_taken
  taken p hp := by
    refine (h.taken p hp).imp_right fun hrun ↦ ?_
    dsimp only
    rw [hg.eq_of_ne (by simp [hrun]), hrun]

/-- The other places say nothing about the queue. -/
theorem Drain.setWorker (h : Drain s) (i : Fin capacity) {w : Worker κ} (hwindow : w ≠ .window)
    (hready : w ≠ .ready) (hreturned : w ≠ .returned) : Drain (s.setWorker i w) where
  window j hj := h.window j (worker_of_setWorker hwindow hj)
  ready j hj := h.ready j (worker_of_setWorker hready hj)
  returned j hj := h.returned j (worker_of_setWorker hreturned hj)

/-- The mutex keeps every call out of `push` while a worker holds it. -/
theorem Locks.call_ne_push (h : Locks s) {i : Fin capacity} (hi : (s.worker i).holds) (c : κ) :
    s.call c ≠ .push := by
  intro hc
  have hcall : s.holds (.call c) := by rw [State.holds, hc]; rfl
  have hworker : s.holds (.worker i) := hi
  cases h.unique hworker hcall

theorem Locks.ready_unique (h : Locks s) {i j : Fin capacity} (hi : s.worker i = .ready)
    (hj : s.worker j = .ready) : i = j := by
  have hholds {k : Fin capacity} (hk : s.worker k = .ready) : s.holds (.worker k) := by
    rw [State.holds, hk]
    rfl
  exact Owner.worker.inj (h.unique (hholds hi) (hholds hj))

/-- A worker that runs nothing before and after its step carries no task. -/
theorem Exec.setWorker (h : Exec s) {i : Fin capacity} {w : Worker κ}
    (hpc : ∀ task, s.worker i ≠ .run task) (hw : ∀ task, w ≠ .run task) :
    Exec (s.setWorker i w) where
  running j task hj := h.running j task (worker_of_setWorker (hw task) hj)
  nodup := h.nodup
  ran_taken := h.ran_taken
  taken p hp := by
    refine (h.taken p hp).imp_right fun hrun ↦ ?_
    have hne : p.2 ≠ i := fun heq ↦ hpc p.1 (heq ▸ hrun)
    rwa [setWorker_of_ne s hne]

theorem Exec.take (hqueue : Queue s) (h : Exec s) {i : Fin capacity} {task : κ} {tasks : List κ}
    (hpc : s.worker i = .ready) (htasks : s.tasks = task :: tasks) :
    Exec { s.setWorker i (.run task) with
      mutex := none
      tasks := tasks
      taken := s.taken ++ [(task, i)] } where
  running j task' hj := by
    dsimp only [State.setWorker] at hj ⊢
    by_cases hji : j = i
    · subst hji
      rw [Function.update_self] at hj
      obtain rfl := Worker.run.inj hj
      refine ⟨by simp, fun hran ↦ ?_⟩
      have hnodup := hqueue.nodup
      rw [hqueue.order, htasks] at hnodup
      exact (List.nodup_append.mp hnodup).2.2 _ (h.ran_taken _ hran) _ List.mem_cons_self rfl
    · rw [Function.update_of_ne hji] at hj
      have hrun := h.running j task' hj
      exact ⟨List.mem_append_left _ hrun.1, hrun.2⟩
  nodup := h.nodup
  ran_taken d hd := by
    dsimp only
    rw [List.map_append]
    exact List.mem_append_left _ (h.ran_taken d hd)
  taken p hp := by
    dsimp only [State.setWorker] at hp ⊢
    rcases List.mem_append.mp hp with hp | hp
    · refine (h.taken p hp).imp_right fun hrun ↦ ?_
      have hne : p.2 ≠ i := by
        intro heq
        rw [heq, hpc] at hrun
        cases hrun
      rwa [Function.update_of_ne hne]
    · rw [List.mem_singleton.mp hp, Function.update_self]
      exact Or.inr rfl

theorem Exec.finish (hqueue : Queue s) (h : Exec s) {i : Fin capacity} {task : κ}
    (hpc : s.worker i = .run task) :
    Exec { s.setWorker i .notify with ran := s.ran ++ [task] } where
  running j task' hj := by
    have hrun := h.running j task' (worker_of_setWorker (by simp) hj)
    refine ⟨hrun.1, fun hran ↦ ?_⟩
    rcases List.mem_append.mp hran with hran | hran
    · exact hrun.2 hran
    · rw [List.mem_singleton.mp hran] at hrun
      obtain rfl := hqueue.taken_unique hrun.1 (h.running i task hpc).1
      exact absurd ((setWorker_self s j .notify).symm.trans hj) (by simp)
  nodup := by
    dsimp only
    rw [← List.concat_eq_append]
    exact h.nodup.concat (h.running i task hpc).2
  ran_taken d hd := by
    rcases List.mem_append.mp hd with hd | hd
    · exact h.ran_taken d hd
    · rw [List.mem_singleton.mp hd]
      exact List.mem_map_of_mem (h.running i task hpc).1
  taken p hp := by
    dsimp only [State.setWorker]
    rcases h.taken p hp with hran | hrun
    · exact Or.inl (List.mem_append_left _ hran)
    · by_cases hpi : p.2 = i
      · rw [hpi, hpc] at hrun
        exact Or.inl (by simp [Worker.run.inj hrun])
      · rw [Function.update_of_ne hpi]
        exact Or.inr hrun

/-- What holds in every run. -/
structure Inv (s : State κ capacity) : Prop where
  locks : Locks s
  queue : Queue s
  drain : Drain s
  exec : Exec s

theorem Inv.init : Inv (init κ capacity) where
  locks o ho := by
    cases o with
    | worker i => cases ho
    | call c => cases ho
  queue := ⟨rfl, fun c ↦ by simp [ThreadPool.init, Call.accepted], List.nodup_nil⟩
  drain := { window := nofun, ready := nofun, returned := nofun }
  exec := { running := nofun, nodup := List.nodup_nil, ran_taken := nofun, taken := nofun }

theorem Inv.mem_accepted (h : Inv s) (c : κ) :
    c ∈ s.accepted ↔ s.call c = .notify ∨ s.call c = .done := by
  rw [h.queue.mem_accepted]
  cases s.call c <;> simp [Call.accepted]

theorem Inv.drained (hcapacity : 0 < capacity) (h : Inv s) (hall : ∀ i, s.worker i = .returned) :
    s.tasks = [] ∧ s.ran.Perm s.accepted ∧ ∀ c ∈ s.accepted, ∃! i, (c, i) ∈ s.taken := by
  have hempty : s.tasks = [] := (h.drain.returned ⟨0, hcapacity⟩ (hall _)).2.1
  have horder : s.accepted = s.taken.map Prod.fst := by
    rw [h.queue.order, hempty, List.append_nil]
  refine ⟨hempty, ?_, fun c hc ↦ ?_⟩
  · refine (List.perm_ext_iff_of_nodup h.exec.nodup h.queue.nodup).mpr fun c ↦ ⟨fun hc ↦ ?_, ?_⟩
    · rw [horder]
      exact h.exec.ran_taken c hc
    · intro hc
      rw [horder] at hc
      obtain ⟨p, hp, rfl⟩ := List.mem_map.mp hc
      refine (h.exec.taken p hp).resolve_right fun hrun ↦ ?_
      rw [hall] at hrun
      cases hrun
  · rw [horder] at hc
    obtain ⟨⟨task, i⟩, hp, rfl⟩ := List.mem_map.mp hc
    exact ⟨i, hp, fun j hj ↦ h.queue.taken_unique hj hp⟩

variable [DecidableEq κ]

theorem call_of_setCall {c d : κ} {pc v : Call} (hne : pc ≠ v) (h : (s.setCall c pc).call d = v) :
    s.call d = v := by
  by_cases hd : d = c
  · subst hd
    rw [setCall_self] at h
    exact absurd h hne
  · rwa [setCall_of_ne s hd] at h

theorem Queue.setCall (h : Queue s) {c : κ} {pc : Call}
    (hpc : pc.accepted = (s.call c).accepted) : Queue (s.setCall c pc) where
  order := h.order
  nodup := h.nodup
  mem_accepted d := by
    by_cases hd : d = c
    · subst hd
      rw [setCall_self, hpc]
      exact h.mem_accepted d
    · rw [setCall_of_ne s hd]
      exact h.mem_accepted d

theorem Queue.push (h : Queue s) {c : κ} (hpc : s.call c = .push) :
    Queue { s.setCall c .notify with
      mutex := none
      tasks := s.tasks ++ [c]
      accepted := s.accepted ++ [c] } where
  order := by
    dsimp only [State.setCall]
    rw [h.order, List.append_assoc]
  nodup := by
    have hc : c ∉ s.accepted := by
      rw [h.mem_accepted, hpc]
      simp [Call.accepted]
    dsimp only
    rw [← List.concat_eq_append]
    exact h.nodup.concat hc
  mem_accepted d := by
    dsimp only [State.setCall]
    by_cases hd : d = c
    · subst hd
      simp [Call.accepted]
    · rw [Function.update_of_ne hd, ← h.mem_accepted]
      simp [hd]

theorem Queue.move (h : Queue s) (hmove : Move s u) : Queue u := by
  cases hmove with
  | take i task tasks hpc htasks =>
    refine ⟨?_, h.mem_accepted, h.nodup⟩
    dsimp only [State.setWorker]
    rw [h.order, htasks, List.map_append, List.append_assoc]
    rfl
  | enter c hpc hfree =>
    have hcall : Queue (s.setCall c .check) := h.setCall (by rw [hpc]; rfl)
    exact hcall.setMutex _
  | reject c hpc hstop =>
    have hcall : Queue (s.setCall c .threw) := h.setCall (by rw [hpc]; rfl)
    exact hcall.setMutex _
  | accept c hpc hrunning => exact h.setCall (by rw [hpc]; rfl)
  | push c hpc => exact h.push hpc
  | exit c hpc => exact h.setCall (by rw [hpc]; rfl)
  | _ => exact ⟨h.order, h.mem_accepted, h.nodup⟩

theorem Drain.setCall (h : Drain s) (c : κ) {pc : Call} (hpc : pc ≠ .push) :
    Drain (s.setCall c pc) where
  window := h.window
  ready := h.ready
  returned j hj :=
    ⟨(h.returned j hj).1, (h.returned j hj).2.1,
      fun d hd ↦ (h.returned j hj).2.2 d (call_of_setCall hpc hd)⟩

theorem Drain.move (hlocks : Locks s) (h : Drain s) (hmove : Move s u) : Drain u := by
  cases hmove with
  | stay => exact h
  | acquire i hpc hfree =>
    have hset : Drain (s.setWorker i .test) := h.setWorker i (by simp) (by simp) (by simp)
    exact hset.setMutex _
  | pass i hpc hpred =>
    exact ⟨fun j hj ↦ h.window j (worker_of_setWorker (by simp) hj), fun j hj ↦ hpred,
      fun j hj ↦ h.returned j (worker_of_setWorker (by simp) hj)⟩
  | fail i hpc hrunning hempty =>
    exact ⟨fun j hj ↦ hempty, fun j hj ↦ h.ready j (worker_of_setWorker (by simp) hj),
      fun j hj ↦ h.returned j (worker_of_setWorker (by simp) hj)⟩
  | block i hpc =>
    have hset : Drain (s.setWorker i (.wait false)) := h.setWorker i (by simp) (by simp) (by simp)
    exact hset.setMutex _
  | leave i hpc hstop hempty =>
    refine ⟨fun j hj ↦ h.window j (worker_of_setWorker (by simp) hj),
      fun j hj ↦ h.ready j (worker_of_setWorker (by simp) hj), fun j hj ↦ ?_⟩
    exact ⟨hstop, hempty, hlocks.call_ne_push (i := i) (by rw [hpc]; rfl)⟩
  | take i task tasks hpc htasks =>
    have hne : s.tasks ≠ [] := by simp [htasks]
    refine ⟨fun j hj ↦ ?_, fun j hj ↦ ?_, fun j hj ↦ ?_⟩
    · exact absurd (h.window j (worker_of_setWorker (by simp) hj)) hne
    · have hji := hlocks.ready_unique (worker_of_setWorker (by simp) hj) hpc
      subst hji
      exact absurd ((setWorker_self s j (.run task)).symm.trans hj) (by simp)
    · exact absurd (h.returned j (worker_of_setWorker (by simp) hj)).2.1 hne
  | finish i task hpc =>
    have hset : Drain (s.setWorker i .notify) := h.setWorker i (by simp) (by simp) (by simp)
    exact ⟨hset.window, hset.ready, hset.returned⟩
  | again i hpc => exact h.setWorker i (by simp) (by simp) (by simp)
  | enter c hpc hfree =>
    have hset : Drain (s.setCall c .check) := h.setCall c (by simp)
    exact hset.setMutex _
  | reject c hpc hstop =>
    have hset : Drain (s.setCall c .threw) := h.setCall c (by simp)
    exact hset.setMutex _
  | accept c hpc hrunning =>
    refine ⟨h.window, h.ready, fun j hj ↦ ?_⟩
    rw [(h.returned j hj).1] at hrunning
    cases hrunning
  | push c hpc =>
    refine ⟨fun j hj ↦ ?_, fun j hj ↦ Or.inr (by simp),
      fun j hj ↦ absurd hpc ((h.returned j hj).2.2 c)⟩
    have hj : s.worker j = .window := hj
    exact absurd hpc (hlocks.call_ne_push (i := j) (by rw [hj]; rfl) c)
  | exit c hpc => exact h.setCall c (by simp)
  | stop => exact ⟨h.window, fun j hj ↦ Or.inl rfl, fun j hj ↦ ⟨rfl, (h.returned j hj).2⟩⟩
  | destroy => exact ⟨h.window, h.ready, h.returned⟩

theorem Exec.move (hqueue : Queue s) (h : Exec s) (hmove : Move s u) : Exec u := by
  cases hmove with
  | stay => exact h
  | acquire i hpc hfree =>
    have hidle : ∀ task, s.worker i ≠ .run task := by
      rcases hpc with hpc | hpc <;> simp [hpc]
    have hset : Exec (s.setWorker i .test) := h.setWorker hidle (by simp)
    exact hset.setMutex _
  | pass i hpc hpred => exact h.setWorker (by simp [hpc]) (by simp)
  | fail i hpc hrunning hempty => exact h.setWorker (by simp [hpc]) (by simp)
  | block i hpc =>
    have hset : Exec (s.setWorker i (.wait false)) := h.setWorker (by simp [hpc]) (by simp)
    exact hset.setMutex _
  | leave i hpc hstop hempty =>
    have hset : Exec (s.setWorker i .returned) := h.setWorker (by simp [hpc]) (by simp)
    exact hset.setMutex _
  | take i task tasks hpc htasks => exact h.take hqueue hpc htasks
  | finish i task hpc => exact h.finish hqueue hpc
  | again i hpc => exact h.setWorker (by simp [hpc]) (by simp)
  | _ => exact ⟨h.running, h.nodup, h.ran_taken, h.taken⟩

theorem Inv.step {t : State κ capacity} {a : Act κ capacity} (h : Inv s)
    (hstep : step s a = some t) : Inv t := by
  obtain ⟨u, hmove, g, hg, rfl⟩ := step_cases hstep
  have hqueue := h.queue.move hmove
  exact ⟨(h.locks.move hmove).woken hg, ⟨hqueue.order, hqueue.mem_accepted, hqueue.nodup⟩,
    (h.drain.move h.locks hmove).woken hg, (h.exec.move h.queue hmove).woken hg⟩

theorem reachable_inv {P : State κ capacity → Act κ capacity → Prop}
    (h : Reachable step P (ThreadPool.init κ capacity) s) : Inv s :=
  h.invariant Inv.init fun _ _ _ hinv _ hstep ↦ hinv.step hstep

theorem callStep_frame {t : State κ capacity} {c : κ} (h : callStep s c = some t) :
    t.call c = .notify ∨ t.tasks = s.tasks ∧ t.accepted = s.accepted := by
  unfold callStep at h
  split at h
  · split_ifs at h
    exact Or.inr (Option.some.inj h ▸ ⟨rfl, rfl⟩)
  · split_ifs at h
    · exact Or.inr (Option.some.inj h ▸ ⟨rfl, rfl⟩)
    · exact Or.inr (Option.some.inj h ▸ ⟨rfl, rfl⟩)
  · obtain rfl := Option.some.inj h
    exact Or.inl (setCall_self s c .notify)
  all_goals cases h

/-- Every task accepted is run once. -/
structure RunsOnce (s : State κ capacity) : Prop where
  accepted : ∀ c, c ∈ s.accepted ↔ s.call c = .notify ∨ s.call c = .done
  unchanged : ∀ c t, step s (.call c) = some t →
    t.call c = .notify ∨ t.tasks = s.tasks ∧ t.accepted = s.accepted
  order : s.accepted = s.taken.map Prod.fst ++ s.tasks
  nonempty : ∀ i, s.worker i = .ready → s.tasks = [] → s.stopPool = true
  nodup_accepted : s.accepted.Nodup
  nodup_ran : s.ran.Nodup
  ran_taken : ∀ c ∈ s.ran, ∃ i, (c, i) ∈ s.taken
  taken_unique : ∀ c i j, (c, i) ∈ s.taken → (c, j) ∈ s.taken → i = j
  run_by : ∀ p ∈ s.taken, p.1 ∈ s.ran ∨ s.worker p.2 = .run p.1
  drained : (∀ i, s.worker i = .returned) →
    s.tasks = [] ∧ s.ran.Perm s.accepted ∧ ∀ c ∈ s.accepted, ∃! i, (c, i) ∈ s.taken

theorem runs_every_task_once (hcapacity : 0 < capacity)
    (h : Reachable step (fun _ _ ↦ True) (init κ capacity) s) : RunsOnce s := by
  have hinv := reachable_inv h
  exact {
    accepted := hinv.mem_accepted
    unchanged := fun c t hstep ↦ callStep_frame hstep
    order := hinv.queue.order
    nonempty := fun i hi hempty ↦ (hinv.drain.ready i hi).resolve_right fun hne ↦ hne hempty
    nodup_accepted := hinv.queue.nodup
    nodup_ran := hinv.exec.nodup
    ran_taken := fun c hc ↦ by
      obtain ⟨p, hp, rfl⟩ := List.mem_map.mp (hinv.exec.ran_taken c hc)
      exact ⟨p.2, hp⟩
    taken_unique := fun c i j hi hj ↦ hinv.queue.taken_unique hi hj
    run_by := hinv.exec.taken
    drained := hinv.drained hcapacity }

/-- One worker, and one call between whose check and push the destructor starts. -/
theorem runs_every_task_once_one :
    ∃ t : State Unit 1, RunsOnce t ∧ (∀ i, t.worker i = .returned) ∧ t.ran = [()] := by
  have hrun : ∃ t : State Unit 1, exec step (init Unit 1) [.worker 0, .worker 0, .worker 0,
      .call (), .call (), .stop, .call (), .callNotify () (some 0), .notifyAll, .worker 0,
      .worker 0, .worker 0, .worker 0, .workerNotify 0 none, .worker 0, .worker 0, .worker 0] =
        some t ∧ (∀ i, t.worker i = .returned) ∧ t.ran = [()] :=
    ⟨_, rfl, by decide, rfl⟩
  obtain ⟨t, ht, hall, hran⟩ := hrun
  exact ⟨t, runs_every_task_once (by decide) (.of_exec ht), hall, hran⟩

end Tasks

end ShannonNet.Utils.ThreadPool
