import ShannonNet.Library.Runs
import ShannonNet.Server.GetData

namespace ShannonNet.Server

open Library.Runs Library.Bitset Library.Buffer GetData

/-- The `get_data` requests `ι` for one index at any point of their interleaving. The two lists
are histories: the requests counted so far and those that passed the check of `move`, the latest
first. -/
structure Pool (ι : Type) where
  slot : Slot
  request : ι → Pc
  counted : List ι
  entered : List ι

namespace Pool

variable {cfg : Config} (dir : ℕ → Bool) {ι : Type} [DecidableEq ι] (req : ι → Request cfg)

def step (p : Pool ι) (i : ι) : Option (Pool ι) :=
  ((p.request i).step dir (req i) p.slot).map fun (pc, slot) ↦
    { slot := slot
      request := Function.update p.request i pc
      counted := if (p.request i).isZincrby then i :: p.counted else p.counted
      entered := if pc.isMoveRead then i :: p.entered else p.entered }

theorem step_cases {p q : Pool ι} {i : ι} (h : p.step dir req i = some q) :
    ∃ pc slot, (p.request i).step dir (req i) p.slot = some (pc, slot) ∧
      q = ⟨slot, Function.update p.request i pc,
        if (p.request i).isZincrby then i :: p.counted else p.counted,
        if pc.isMoveRead then i :: p.entered else p.entered⟩ := by
  obtain ⟨⟨pc, slot⟩, hstep, rfl⟩ := Option.map_eq_some_iff.mp h
  exact ⟨pc, slot, hstep, rfl⟩

def moveTo (p : Pool ι) (i : ι) (pc : Pc) : Pool ι :=
  { p with request := Function.update p.request i pc }

theorem moveTo_self {p : Pool ι} {i : ι} {pc : Pc} (h : p.request i = pc) : p.moveTo i pc = p := by
  rw [← h, moveTo, Function.update_eq_self]

variable {dir req} {p : Pool ι} {i : ι}

theorem moveTo_request (pc : Pc) : (p.moveTo i pc).request i = pc := Function.update_self _ _ _

theorem moveTo_request_of_ne {j : ι} (hj : j ≠ i) (pc : Pc) :
    (p.moveTo i pc).request j = p.request j := Function.update_of_ne hj _ _

theorem step_moveTo {pc pc' : Pc} {s : Slot} (h : pc.step dir (req i) p.slot = some (pc', s)) :
    (p.moveTo i pc).step dir req i = some (moveTo
      { p with
        slot := s
        counted := if pc.isZincrby then i :: p.counted else p.counted
        entered := if pc'.isMoveRead then i :: p.entered else p.entered } i pc') := by
  simp only [step, moveTo, Function.update_self, Function.update_idem, h, Option.map_some]

def countOne (p : Pool ι) (i : ι) : Pool ι :=
  { p with
    slot := { p.slot with
      count := Function.update p.slot.count .server (some ((p.slot.count .server).getD 0 + 1)) }
    counted := i :: p.counted }

omit [DecidableEq ι] in
theorem countOne_count (p : Pool ι) (i : ι) :
    ((p.countOne i).slot.count .server).getD 0 = (p.slot.count .server).getD 0 + 1 := by
  simp [countOne]

variable (dir req) in
/-- The count of a request, or a step that leaves the counted requests alone. -/
inductive StepKind (p : Pool ι) (i : ι) : Pool ι → Prop
  | count {data : List SecretDto} (hpc : p.request i = .zincrby data) :
    StepKind p i ((p.countOne i).moveTo i
      (if (p.slot.count .server).getD 0 + 1 ≥ cfg.progress then .isValid data else success data))
  | other {pc : Pc} {slot : Slot} (hz : (p.request i).isZincrby = false)
    (hstep : (p.request i).step dir (req i) p.slot = some (pc, slot)) :
    StepKind p i ⟨slot, Function.update p.request i pc, p.counted,
      if pc.isMoveRead then i :: p.entered else p.entered⟩

structure Servable (req : ι → Request cfg) (running content : Bytes) (s : Slot) : Prop where
  time : (s.time .server).isSome
  running : s.running .server = some running
  waiting : s.waiting = some content
  secret : ∀ i, s.secret (.server, (req i).nodeId) = none

omit [DecidableEq ι] in
theorem Servable.frame {running content : Bytes} {s s' : Slot} (h : Servable req running content s)
    (hs : s' = { s with count := s'.count }) : Servable req running content s' := by
  rw [hs]
  exact ⟨h.time, h.running, h.waiting, h.secret⟩

section Serving

/- The conditions of interest constrain the count and the check of `move` alone. -/
variable {P : Pool ι → ι → Prop} (hP : ∀ p i, (p.request i).quiet = true → P p i)

include hP

theorem next_moveTo {q : Pool ι} {pc pc' : Pc} {s : Slot}
    (h : pc.step dir (req i) p.slot = some (pc', s)) (hquiet : pc.quiet = true)
    (henter : pc'.isMoveRead = false) (hrun : Reachable (step dir req) P q (p.moveTo i pc)) :
    Reachable (step dir req) P q (moveTo { p with slot := s } i pc') := by
  refine hrun.next (hP _ i ?_) ((step_moveTo h).trans (by rw [henter, Pc.not_zincrby hquiet]; rfl))
  rwa [moveTo_request]

variable (dir req)

theorem prepare {running content : Bytes} (hs : Servable req running content p.slot)
    (hpc : p.request i = .createTime) (hprogress : (req i).progress < cfg.progress) :
    Reachable (step dir req) P p
      (p.moveTo i (.zincrby (pieceData cfg running content (req i)))) := by
  have hrun : Reachable (step dir req) P p (p.moveTo i .createTime) := by
    rw [moveTo_self hpc]
    exact .start
  have hrun : Reachable _ _ p (p.moveTo i .runningExists) :=
    next_moveTo hP (by rw [Pc.step, if_pos hs.time]) rfl rfl hrun
  have hrun : Reachable _ _ p (p.moveTo i .waitingExists) :=
    next_moveTo hP (by rw [Pc.step, hs.running]; rfl) rfl rfl hrun
  have hrun : Reachable _ _ p (p.moveTo i .secretExists) :=
    next_moveTo hP (by rw [Pc.step, hs.waiting]; rfl) rfl rfl hrun
  have hrun : Reachable _ _ p (p.moveTo i .fromFile) :=
    next_moveTo hP (by rw [Pc.step, hs.secret]; rfl) rfl rfl hrun
  have hrun : Reachable _ _ p (p.moveTo i (.openWaiting running)) :=
    next_moveTo hP (by rw [Pc.step, hs.running]; rfl) rfl rfl hrun
  have hrun : Reachable _ _ p (p.moveTo i (.read running content)) :=
    next_moveTo hP (by rw [Pc.step, hs.waiting]) rfl rfl hrun
  exact next_moveTo hP (Pc.step_read hprogress) rfl rfl hrun

omit hP in
theorem count {data : List SecretDto} (hpc : p.request i = .zincrby data) :
    p.step dir req i = some ((p.countOne i).moveTo i
      (if (p.slot.count .server).getD 0 + 1 ≥ cfg.progress then .isValid data
        else success data)) := by
  have henter : (if (p.slot.count .server).getD 0 + 1 ≥ cfg.progress then Pc.isValid data
      else success data).isMoveRead = false := by
    split_ifs <;> rfl
  have h : (p.moveTo i (.zincrby data)).step dir req i = some ((p.countOne i).moveTo i
      (if (p.slot.count .server).getD 0 + 1 ≥ cfg.progress then .isValid data else success data)) :=
    (step_moveTo rfl).trans (by rw [henter]; rfl)
  rwa [moveTo_self hpc] at h

omit hP in
theorem step_kind {q : Pool ι} (h : p.step dir req i = some q) : StepKind dir req p i q := by
  cases hz : (p.request i).isZincrby with
  | true =>
    obtain ⟨data, hpc⟩ := Pc.eq_zincrby hz
    rw [count dir req hpc] at h
    cases h
    exact .count hpc
  | false =>
    obtain ⟨pc, slot, hstep, rfl⟩ := step_cases dir req h
    rw [hz]
    exact .other hz hstep

variable (hcount : ∀ p i, (p.request i).isZincrby = true → P p i)

include hcount

theorem serve {running content : Bytes} (hs : Servable req running content p.slot)
    (hpc : p.request i = .createTime) (hprogress : (req i).progress < cfg.progress) :
    Reachable (step dir req) P p ((p.countOne i).moveTo i
      (if (p.slot.count .server).getD 0 + 1 ≥ cfg.progress then
        .isValid (pieceData cfg running content (req i))
      else success (pieceData cfg running content (req i)))) := by
  refine (prepare dir req hP hs hpc hprogress).next
    (hcount _ i (by rw [moveTo_request]; rfl)) ((count dir req (moveTo_request _)).trans ?_)
  simp only [countOne, moveTo, Function.update_idem]
  rfl

/-- Requests served one after the other while the counter stays below `PROGRESS`. -/
theorem serve_all {running content : Bytes} (l : List ι) (p : Pool ι)
    (hs : Servable req running content p.slot) (hl : l.Nodup)
    (hpc : ∀ i ∈ l, p.request i = .createTime)
    (hprogress : ∀ i ∈ l, (req i).progress < cfg.progress)
    (hroom : (p.slot.count .server).getD 0 + l.length < cfg.progress) :
    ∃ q, Reachable (step dir req) P p q ∧ q.slot = { p.slot with count := q.slot.count } ∧
      (q.slot.count .server).getD 0 = (p.slot.count .server).getD 0 + l.length ∧
      (∀ i ∉ l, q.request i = p.request i) ∧ (∀ i ∈ l, ∃ data, q.request i = success data) ∧
      q.entered = p.entered := by
  induction l generalizing p with
  | nil => exact ⟨p, .start, rfl, rfl, fun _ _ ↦ rfl, by simp, rfl⟩
  | cons i l ih =>
    obtain ⟨hi, hl⟩ := List.nodup_cons.mp hl
    have hne {j : ι} (hj : j ∈ l) : j ≠ i := fun h ↦ hi (h ▸ hj)
    rw [List.length_cons] at hroom
    have hrun := serve dir req hP hcount hs (hpc i (by simp)) (hprogress i (by simp))
    rw [if_neg (by omega)] at hrun
    set data := pieceData cfg running content (req i)
    set p' := (p.countOne i).moveTo i (success data) with hp'
    have hcount' : (p'.slot.count .server).getD 0 = (p.slot.count .server).getD 0 + 1 :=
      countOne_count p i
    have hpc' (j : ι) (hj : j ≠ i) : p'.request j = p.request j :=
      moveTo_request_of_ne hj _
    obtain ⟨q, hq, hslot, hq_count, hq_pc, hq_done, hq_entered⟩ := ih p' (hs.frame rfl) hl
      (fun j hj ↦ by rw [hpc' j (hne hj), hpc j (by simp [hj])])
      (fun j hj ↦ hprogress j (by simp [hj])) (by omega)
    refine ⟨q, hrun.trans hq, ?_, ?_, ?_, ?_, hq_entered⟩
    · rw [hslot]
      rfl
    · rw [hq_count, hcount', List.length_cons]
      omega
    · intro j hj
      rw [List.mem_cons, not_or] at hj
      rw [hq_pc j hj.2, hpc' j hj.1]
    · intro j hj
      rcases List.mem_cons.mp hj with rfl | hj
      · exact ⟨data, by rw [hq_pc j hi, hp', moveTo_request]⟩
      · exact hq_done j hj

omit hP hcount in
theorem enter {data : List SecretDto} (hpc : p.request i = .isValid data)
    (hvalid : (p.slot.valid (req i).nodeId).getD 0 = 0) :
    p.step dir req i = some (moveTo { p with entered := i :: p.entered } i (.moveRead data)) := by
  have h : (p.moveTo i (.isValid data)).step dir req i =
      some (moveTo { p with entered := i :: p.entered } i (.moveRead data)) :=
    step_moveTo (by rw [Pc.step, if_neg (not_ne_iff.mpr hvalid)])
  rwa [moveTo_self hpc] at h

omit hcount in
theorem copy {data : List SecretDto} (hpc : p.request i = .moveRead data)
    (hdir : dir (req i).nodeId = true) :
    let file := some (load cfg.secretASize (p.slot.waiting.getD []) 0)
    let secret := Function.update p.slot.secret (.server, (req i).nodeId) file
    Reachable (step dir req) P p
      (moveTo { p with slot := { p.slot with secret := secret } } i (.moveZadd data)) := by
  set buffer := load cfg.secretASize (p.slot.waiting.getD []) 0
  have hrun : Reachable (step dir req) P p (p.moveTo i (.moveRead data)) := by
    rw [moveTo_self hpc]
    exact .start
  have hrun : Reachable _ _ p (p.moveTo i (.moveOpen data buffer)) :=
    next_moveTo hP rfl rfl rfl hrun
  have hrun := next_moveTo hP (by rw [Pc.step, if_pos hdir]) rfl rfl hrun
  have hrun := next_moveTo hP rfl rfl rfl hrun
  simpa only [Function.update_self, Option.map_some, overlay_nil, Function.update_idem] using hrun

omit hcount in
theorem finish {data : List SecretDto} (hpc : p.request i = .moveZadd data) :
    let valid := Function.update p.slot.valid (req i).nodeId (some Utils.nodeSecretInvalid)
    Reachable (step dir req) P p
      (moveTo { p with slot := { p.slot with valid := valid, waiting := none } } i
        (success data)) := by
  have hrun : Reachable (step dir req) P p (p.moveTo i (.moveZadd data)) := by
    rw [moveTo_self hpc]
    exact .start
  have hrun := next_moveTo hP rfl rfl rfl hrun
  have hrun := next_moveTo hP rfl rfl rfl hrun
  exact hrun

end Serving

def plainRequest (progress : ℕ) : Request Config.release := ⟨1, progress, fun _ ↦ .release, one_pos⟩

def onlyOnes : Bytes := List.replicate Config.release.secretASize 1

def ready (ι : Type) (n : ℕ) : Pool ι where
  slot := { Slot.empty with
    time := fun _ ↦ some 1700000000
    count := fun _ ↦ some n
    running := fun _ ↦ some (zeros Config.release.secretFileSize)
    waiting := some onlyOnes }
  request _ := .createTime
  counted := []
  entered := []

end Pool
end ShannonNet.Server
