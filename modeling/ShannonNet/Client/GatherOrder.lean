import ShannonNet.Library.Runs
import Mathlib.Order.Interval.Finset.Nat

namespace ShannonNet.Client.GatherOrder

open Library.Runs

/-- How an asynchronous `Decrypt::process` ends. -/
inductive Outcome
  | ok
  | failed
  | threw
  deriving DecidableEq

/-- Where `clientRun` is in its pull loop. `destroy` is the end of a turn, where the vector of
futures goes out of scope, and `leave` whether the loop is left there. -/
inductive Pc
  | handOut (clientThreadId : ℕ)
  | wait (futureItem : ℕ)
  | gather
  | destroy (leave : Bool)
  | left
  deriving DecidableEq

/-- `clientAsyncVec` names the futures of a turn by their pieces; `running` are the calls that are
started and not finished. -/
structure State where
  clientIndexCount : ℕ
  progress : ℕ
  clientAsyncVec : List ℕ
  running : Finset ℕ
  pc : Pc
  deriving DecidableEq

/-- A step of `clientRun`, or the end of the call for a piece. -/
inductive Act
  | main
  | finish (piece : ℕ)

/-- The one `return` of `Decrypt::gather`. -/
def gatherFlag : Bool := true

section Loop

variable (maxProgress clientThreadNum : ℕ) (outcome : ℕ → Outcome)

/-- The end of the loop over the futures. -/
def State.gathers (s : State) : State :=
  { s with pc := if s.progress ≥ maxProgress then .gather else .destroy false }

def step (s : State) : Act → Option State
  | .finish piece =>
    if piece ∈ s.running then some { s with running := s.running.erase piece } else none
  | .main =>
    match s.pc with
    | .handOut clientThreadId =>
      if clientThreadId < clientThreadNum then
        let progress := s.clientIndexCount + 1
        let pc := if progress ≥ maxProgress then .wait 0 else .handOut (clientThreadId + 1)
        some (if progress ≤ maxProgress then
          ⟨progress, progress, s.clientAsyncVec ++ [progress - 1],
            insert (progress - 1) s.running, pc⟩
        else ⟨progress, progress, s.clientAsyncVec, s.running, pc⟩)
      else some { s with pc := .wait 0 }
    | .wait futureItem =>
      match s.clientAsyncVec[futureItem]? with
      | none => some (s.gathers maxProgress)
      | some piece =>
        if piece ∈ s.running then none
        else match outcome piece with
          | .ok => some { s with pc := .wait (futureItem + 1) }
          | .failed => some (s.gathers maxProgress)
          -- `get` rethrows, and the stack of `clientRun` is unwound
          | .threw => some { s with pc := .destroy true }
    | .gather => some { s with pc := .destroy gatherFlag }
    -- the last reference to the state of an `std::async` call waits for it
    | .destroy leave =>
      if ∀ piece ∈ s.clientAsyncVec, piece ∉ s.running then
        some { s with clientAsyncVec := [], pc := if leave then .left else .handOut 0 }
      else none
    | .left => none

/-- The loop is entered with the counter at `count`. -/
def init (count : ℕ) : State := ⟨count, 0, [], ∅, .handOut 0⟩

def Runs : State → State → Prop :=
  Reachable (step maxProgress clientThreadNum outcome) fun _ _ ↦ True

end Loop

section Turns

variable (maxProgress clientThreadNum : ℕ) (outcome : ℕ → Outcome) (count : ℕ)

/-- The first piece of turn `n` of the pull loop. -/
def turnStart (n : ℕ) : ℕ := count + clientThreadNum * n

/-- The first piece of the turn that hands out `piece`. -/
def turnOf (piece : ℕ) : ℕ := turnStart clientThreadNum count ((piece - count) / clientThreadNum)

/-- The loop over the futures comes to the one of `piece`. -/
def Awaited (piece : ℕ) : Prop :=
  ∀ earlier < piece, turnOf clientThreadNum count piece ≤ earlier → outcome earlier = .ok

/-- In the last turn no future that is waited for yields `false`, that of the last piece apart;
or the loop does not come that far. -/
def Safe : Prop :=
  clientThreadNum = 0 ∨
    (∃ piece < turnOf clientThreadNum count (maxProgress - 1), count ≤ piece ∧
      Awaited clientThreadNum outcome count piece ∧ outcome piece = .threw) ∨
    ∀ piece < maxProgress - 1, turnOf clientThreadNum count (maxProgress - 1) ≤ piece →
      Awaited clientThreadNum outcome count piece → outcome piece ≠ .failed

variable {maxProgress clientThreadNum outcome count}

theorem turnOf_eq {n piece : ℕ} (hle : turnStart clientThreadNum count n ≤ piece)
    (hlt : piece < turnStart clientThreadNum count n + clientThreadNum) :
    turnOf clientThreadNum count piece = turnStart clientThreadNum count n := by
  unfold turnStart at hle hlt
  have hdiv : (piece - count) / clientThreadNum = n := by
    refine Nat.div_eq_of_lt_le ?_ ?_
    · rw [Nat.mul_comm]
      omega
    · rw [Nat.mul_comm, Nat.mul_succ]
      omega
  rw [turnOf, hdiv]

theorem turnStart_succ (n : ℕ) :
    turnStart clientThreadNum count (n + 1) =
      turnStart clientThreadNum count n + clientThreadNum := by
  rw [turnStart, turnStart, Nat.mul_succ, Nat.add_assoc]

theorem le_turnStart (clientThreadNum count n : ℕ) : count ≤ turnStart clientThreadNum count n :=
  Nat.le_add_right _ _

end Turns

section Safety

variable (maxProgress clientThreadNum : ℕ) (outcome : ℕ → Outcome) (count : ℕ)

/-- No turn before piece `bound` ends with an exception. -/
def Quiet (bound : ℕ) : Prop :=
  ∀ piece < bound, count ≤ piece → Awaited clientThreadNum outcome count piece →
    outcome piece ≠ .threw

/-- The loop over the futures has come to its end, or to one that yields `false`. -/
def State.Ended (n : ℕ) (s : State) : Prop :=
  let start := turnStart clientThreadNum count n
  ∃ k, (∀ j < k, start + j ∉ s.running ∧ outcome (start + j) = .ok) ∧
    (s.clientAsyncVec.length ≤ k ∨ start + k ∉ s.running ∧ outcome (start + k) = .failed)

/-- What holds at each place of turn `n`. -/
def State.At (n : ℕ) (s : State) : Prop :=
  let start := turnStart clientThreadNum count n
  match s.pc with
  | .handOut k => s.clientIndexCount = start + k ∧ s.clientAsyncVec.length = k ∧
      (0 < k → s.progress = start + k ∧ start + k < maxProgress)
  | .wait k => (s.clientAsyncVec ≠ [] → s.progress = start + s.clientAsyncVec.length ∧
        s.progress ≤ maxProgress) ∧
      (s.progress < maxProgress → s.clientIndexCount = start + clientThreadNum ∧
        s.clientAsyncVec.length = clientThreadNum) ∧
      ∀ j < k, start + j ∉ s.running ∧ outcome (start + j) = .ok
  | .gather => (s.clientAsyncVec ≠ [] → s.progress = start + s.clientAsyncVec.length ∧
        s.progress ≤ maxProgress) ∧ maxProgress ≤ s.progress ∧
      s.Ended clientThreadNum outcome count n
  | .destroy leave => leave = false → s.clientIndexCount = start + clientThreadNum ∧
      Quiet clientThreadNum outcome count (start + clientThreadNum)
  | .left => True

/-- Only calls of the current turn run. -/
structure Inv (n : ℕ) (s : State) : Prop where
  futures : s.clientAsyncVec =
    List.range' (turnStart clientThreadNum count n) s.clientAsyncVec.length
  size : s.clientAsyncVec.length ≤ clientThreadNum
  running : ∀ piece ∈ s.running, piece ∈ s.clientAsyncVec
  quiet : Quiet clientThreadNum outcome count (turnStart clientThreadNum count n)
  place : s.At maxProgress clientThreadNum outcome count n

variable {maxProgress clientThreadNum outcome count} {n : ℕ} {s t : State}

theorem Inv.mem_vec (h : Inv maxProgress clientThreadNum outcome count n s) {piece : ℕ}
    (hpiece : piece ∈ s.clientAsyncVec) :
    turnStart clientThreadNum count n ≤ piece ∧
      piece < turnStart clientThreadNum count n + s.clientAsyncVec.length := by
  rw [h.futures] at hpiece
  exact List.mem_range'_1.mp hpiece

theorem Inv.getElem?_vec (h : Inv maxProgress clientThreadNum outcome count n s) {k piece : ℕ}
    (hk : s.clientAsyncVec[k]? = some piece) :
    piece = turnStart clientThreadNum count n + k ∧ k < s.clientAsyncVec.length := by
  obtain ⟨hlt, hget⟩ := List.getElem?_eq_some_iff.mp hk
  refine ⟨?_, hlt⟩
  rw [h.futures, List.getElem?_range' hlt, Nat.one_mul] at hk
  exact (Option.some.inj hk).symm

theorem Inv.finish (h : Inv maxProgress clientThreadNum outcome count n s) (piece : ℕ) :
    Inv maxProgress clientThreadNum outcome count n
      { s with running := s.running.erase piece } := by
  refine ⟨h.futures, h.size, fun p hp ↦ h.running p (Finset.mem_of_mem_erase hp), h.quiet, ?_⟩
  have hplace := h.place
  unfold State.At at hplace ⊢
  cases hpc : s.pc with
  | wait k =>
    simp only [hpc] at hplace ⊢
    exact ⟨hplace.1, hplace.2.1, fun j hj ↦
      ⟨fun hmem ↦ (hplace.2.2 j hj).1 (Finset.mem_of_mem_erase hmem), (hplace.2.2 j hj).2⟩⟩
  | gather =>
    simp only [hpc] at hplace ⊢
    obtain ⟨hprogress, hlast, k, hwaited, hend⟩ := hplace
    exact ⟨hprogress, hlast, k,
      fun j hj ↦ ⟨fun hmem ↦ (hwaited j hj).1 (Finset.mem_of_mem_erase hmem), (hwaited j hj).2⟩,
      hend.imp_right fun h ↦ ⟨fun hmem ↦ h.1 (Finset.mem_of_mem_erase hmem), h.2⟩⟩
  | handOut k =>
    simp only [hpc] at hplace ⊢
    exact hplace
  | destroy leave =>
    simp only [hpc] at hplace ⊢
    exact hplace
  | left => trivial

theorem Inv.handOut_piece (h : Inv maxProgress clientThreadNum outcome count n s) {k : ℕ}
    (hlen : s.clientAsyncVec.length = k) (hk : k < clientThreadNum) {pc : Pc}
    (hplace : State.At maxProgress clientThreadNum outcome count n
      ⟨turnStart clientThreadNum count n + k + 1, turnStart clientThreadNum count n + k + 1,
        s.clientAsyncVec ++ [turnStart clientThreadNum count n + k],
        insert (turnStart clientThreadNum count n + k) s.running, pc⟩) :
    Inv maxProgress clientThreadNum outcome count n
      ⟨turnStart clientThreadNum count n + k + 1, turnStart clientThreadNum count n + k + 1,
        s.clientAsyncVec ++ [turnStart clientThreadNum count n + k],
        insert (turnStart clientThreadNum count n + k) s.running, pc⟩ := by
  have hfutures := h.futures
  rw [hlen] at hfutures
  refine ⟨?_, ?_, ?_, h.quiet, hplace⟩
  · rw [List.length_append, hlen, hfutures, List.length_singleton, List.range'_concat, Nat.one_mul]
  · rw [List.length_append, hlen]
    exact hk
  · intro piece hpiece
    rw [List.mem_append, List.mem_singleton]
    rcases Finset.mem_insert.mp hpiece with hnew | hold
    · exact Or.inr hnew
    · exact Or.inl (h.running piece hold)

theorem Inv.main_handOut (h : Inv maxProgress clientThreadNum outcome count n s) {k : ℕ}
    (hpc : s.pc = .handOut k) (ht : step maxProgress clientThreadNum outcome s .main = some t) :
    Inv maxProgress clientThreadNum outcome count n t := by
  have hplace := h.place
  simp only [State.At, hpc] at hplace
  obtain ⟨hcount, hlen, hprogress⟩ := hplace
  have hsize := h.size
  simp only [step, hpc, hcount, Nat.add_sub_cancel] at ht
  by_cases hk : k < clientThreadNum
  · rw [if_pos hk] at ht
    rcases lt_trichotomy (turnStart clientThreadNum count n + k + 1) maxProgress with
      hlt | heq | hgt
    · rw [if_pos hlt.le, if_neg (by omega)] at ht
      obtain rfl := Option.some.inj ht
      refine h.handOut_piece hlen hk ?_
      simp only [State.At, List.length_append, hlen, List.length_singleton]
      exact ⟨by omega, trivial, fun _ ↦ ⟨by omega, by omega⟩⟩
    · rw [if_pos heq.le, if_pos (by omega)] at ht
      obtain rfl := Option.some.inj ht
      refine h.handOut_piece hlen hk ?_
      simp only [State.At, List.length_append, hlen, List.length_singleton]
      exact ⟨fun _ ↦ ⟨by omega, heq.le⟩, fun hlt ↦ absurd hlt (by omega),
        fun j hj ↦ absurd hj (by omega)⟩
    · -- all pieces are handed out before, and none in this turn
      rw [if_neg (by omega), if_pos (by omega)] at ht
      obtain rfl := Option.some.inj ht
      have hnil : s.clientAsyncVec = [] := List.length_eq_zero_iff.mp (by omega)
      exact ⟨h.futures, h.size, h.running, h.quiet, fun hne ↦ absurd hnil hne,
        fun hlt ↦ absurd hlt (by dsimp only; omega), fun j hj ↦ absurd hj (by omega)⟩
  · rw [if_neg hk] at ht
    obtain rfl := Option.some.inj ht
    refine ⟨h.futures, h.size, h.running, h.quiet, fun hne ↦ ?_,
      fun _ ↦ ⟨by dsimp only; omega, by dsimp only; omega⟩, fun j hj ↦ absurd hj (by omega)⟩
    have hpos := List.length_pos_iff.mpr hne
    dsimp only at hpos ⊢
    omega

theorem Inv.quiet_turn (h : Inv maxProgress clientThreadNum outcome count n s) {k len : ℕ}
    (hlen : len ≤ clientThreadNum)
    (hok : ∀ j < k, outcome (turnStart clientThreadNum count n + j) = .ok)
    (hend : len ≤ k ∨ outcome (turnStart clientThreadNum count n + k) = .failed) :
    Quiet clientThreadNum outcome count (turnStart clientThreadNum count n + len) := by
  intro piece hlt hcount hawaited hthrew
  by_cases hbefore : piece < turnStart clientThreadNum count n
  · exact h.quiet piece hbefore hcount hawaited hthrew
  · obtain ⟨j, rfl⟩ := Nat.exists_eq_add_of_le (not_lt.mp hbefore)
    rw [Awaited, turnOf_eq (n := n) (by omega) (by omega)] at hawaited
    rcases lt_trichotomy j k with hj | rfl | hj
    · rw [hok j hj] at hthrew
      cases hthrew
    · rcases hend with hle | hfailed
      · omega
      · rw [hfailed] at hthrew
        cases hthrew
    · rcases hend with hle | hfailed
      · omega
      · rw [hawaited _ (by omega) (by omega)] at hfailed
        cases hfailed

theorem Inv.gathers (h : Inv maxProgress clientThreadNum outcome count n s) {k : ℕ}
    (hpc : s.pc = .wait k)
    (hend : s.clientAsyncVec.length ≤ k ∨ turnStart clientThreadNum count n + k ∉ s.running ∧
      outcome (turnStart clientThreadNum count n + k) = .failed) :
    Inv maxProgress clientThreadNum outcome count n (s.gathers maxProgress) := by
  have hplace := h.place
  simp only [State.At, hpc] at hplace
  obtain ⟨hprogress, hcount, hwaited⟩ := hplace
  refine ⟨h.futures, h.size, h.running, h.quiet, ?_⟩
  by_cases hlast : s.progress ≥ maxProgress
  · rw [State.gathers, if_pos hlast, State.At]
    exact ⟨hprogress, hlast, k, hwaited, hend⟩
  · rw [State.gathers, if_neg hlast, State.At]
    obtain ⟨hc, hl⟩ := hcount (by omega)
    refine fun _ ↦ ⟨hc, h.quiet_turn le_rfl (fun j hj ↦ (hwaited j hj).2) ?_⟩
    rcases hend with hend | hend
    · exact Or.inl (by omega)
    · exact Or.inr hend.2

/-- What `clientRun` does at a future, once the call of its piece is finished. -/
theorem Inv.wait_cases (h : Inv maxProgress clientThreadNum outcome count n s) {k : ℕ}
    (hpc : s.pc = .wait k)
    (ht : step maxProgress clientThreadNum outcome s .main = some t) :
    let piece := turnStart clientThreadNum count n + k
    (s.clientAsyncVec.length ≤ k ∨ piece ∉ s.running ∧ outcome piece = .failed) ∧
        t = s.gathers maxProgress ∨
      k < s.clientAsyncVec.length ∧ piece ∉ s.running ∧ outcome piece = .ok ∧
        t = { s with pc := .wait (k + 1) } ∨
      k < s.clientAsyncVec.length ∧ outcome piece = .threw ∧
        t = { s with pc := .destroy true } := by
  simp only [step, hpc] at ht
  cases hpiece : s.clientAsyncVec[k]? with
  | none =>
    rw [hpiece] at ht
    obtain rfl := Option.some.inj ht
    exact .inl ⟨.inl (List.getElem?_eq_none_iff.mp hpiece), rfl⟩
  | some piece =>
    obtain ⟨rfl, hk⟩ := h.getElem?_vec hpiece
    simp only [hpiece] at ht
    split_ifs at ht with hrunning
    cases hout : outcome (turnStart clientThreadNum count n + k) with
    | ok =>
      rw [hout] at ht
      obtain rfl := Option.some.inj ht
      exact .inr (.inl ⟨hk, hrunning, hout, rfl⟩)
    | failed =>
      rw [hout] at ht
      obtain rfl := Option.some.inj ht
      exact .inl ⟨.inr ⟨hrunning, hout⟩, rfl⟩
    | threw =>
      rw [hout] at ht
      obtain rfl := Option.some.inj ht
      exact .inr (.inr ⟨hk, hout, rfl⟩)

theorem Inv.main_wait (h : Inv maxProgress clientThreadNum outcome count n s) {k : ℕ}
    (hpc : s.pc = .wait k)
    (ht : step maxProgress clientThreadNum outcome s .main = some t) :
    Inv maxProgress clientThreadNum outcome count n t := by
  obtain ⟨hend, rfl⟩ | ⟨hk, hrunning, hok, rfl⟩ | ⟨hk, hthrew, rfl⟩ := h.wait_cases hpc ht
  · exact h.gathers hpc hend
  · have hplace := h.place
    simp only [State.At, hpc] at hplace
    refine ⟨h.futures, h.size, h.running, h.quiet, hplace.1, hplace.2.1, fun j hj ↦ ?_⟩
    rcases Nat.lt_succ_iff_lt_or_eq.mp hj with hj | rfl
    · exact hplace.2.2 j hj
    · exact ⟨hrunning, hok⟩
  · exact ⟨h.futures, h.size, h.running, h.quiet, fun hleave ↦ absurd hleave (by decide)⟩

theorem step_destroy {leave : Bool} (hpc : s.pc = .destroy leave)
    (ht : step maxProgress clientThreadNum outcome s .main = some t) :
    (∀ piece ∈ s.clientAsyncVec, piece ∉ s.running) ∧
      t = { s with clientAsyncVec := [], pc := if leave then .left else .handOut 0 } := by
  simp only [step, hpc] at ht
  obtain ⟨hdone, ht⟩ := Option.ite_none_right_eq_some.mp ht
  exact ⟨hdone, (Option.some.inj ht).symm⟩

theorem Inv.main_destroy (h : Inv maxProgress clientThreadNum outcome count n s) {leave : Bool}
    (hpc : s.pc = .destroy leave) (ht : step maxProgress clientThreadNum outcome s .main = some t) :
    ∃ n, Inv maxProgress clientThreadNum outcome count n t := by
  obtain ⟨hdone, rfl⟩ := step_destroy hpc ht
  have hnone (p : ℕ) (hp : p ∈ s.running) : p ∈ ([] : List ℕ) :=
    absurd hp (hdone p (h.running p hp))
  cases leave with
  | true => exact ⟨n, rfl, Nat.zero_le _, hnone, h.quiet, trivial⟩
  | false =>
    have hplace := h.place
    simp only [State.At, hpc] at hplace
    obtain ⟨hcount, hquiet⟩ := hplace trivial
    refine ⟨n + 1, rfl, Nat.zero_le _, hnone, ?_, ?_⟩
    · rwa [turnStart_succ]
    · simp only [State.At, turnStart_succ]
      exact ⟨hcount, rfl, fun h0 ↦ absurd h0 (lt_irrefl 0)⟩

theorem Inv.step (h : Inv maxProgress clientThreadNum outcome count n s) {a : Act}
    (ht : step maxProgress clientThreadNum outcome s a = some t) :
    ∃ n, Inv maxProgress clientThreadNum outcome count n t := by
  cases a with
  | finish piece =>
    simp only [GatherOrder.step] at ht
    split_ifs at ht
    obtain rfl := Option.some.inj ht
    exact ⟨n, h.finish piece⟩
  | main =>
    cases hpc : s.pc with
    | handOut k => exact ⟨n, h.main_handOut hpc ht⟩
    | wait k => exact ⟨n, h.main_wait hpc ht⟩
    | gather =>
      simp only [GatherOrder.step, hpc] at ht
      obtain rfl := Option.some.inj ht
      exact ⟨n, h.futures, h.size, h.running, h.quiet, fun hleave ↦ absurd hleave (by decide)⟩
    | destroy leave => exact h.main_destroy hpc ht
    | left =>
      simp only [GatherOrder.step, hpc] at ht
      cases ht

theorem Inv.init : Inv maxProgress clientThreadNum outcome count 0 (init count) :=
  ⟨rfl, Nat.zero_le _, fun p hp ↦ absurd hp (Finset.notMem_empty p),
    fun p hp hcount ↦ absurd hp (by rw [turnStart, Nat.mul_zero]; omega),
    rfl, rfl, fun h0 ↦ absurd h0 (lt_irrefl 0)⟩

/-- A call that runs beside `gather` is one of the last turn, behind one that failed. -/
theorem Inv.running_empty (hsafe : Safe maxProgress clientThreadNum outcome count)
    (h : Inv maxProgress clientThreadNum outcome count n s) (hpc : s.pc = .gather) :
    s.running = ∅ := by
  have hplace := h.place
  simp only [State.At, hpc] at hplace
  obtain ⟨hprogress, hlast, k, hwaited, hend⟩ := hplace
  have hsize := h.size
  rw [Finset.eq_empty_iff_forall_notMem]
  intro piece hpiece
  obtain ⟨hle, hlt⟩ := h.mem_vec (h.running piece hpiece)
  obtain ⟨hp, hmax⟩ := hprogress (List.ne_nil_of_length_pos (by omega))
  obtain ⟨j, rfl⟩ := Nat.exists_eq_add_of_le hle
  have hj : k ≤ j := by
    by_contra hj
    exact (hwaited j (by omega)).1 hpiece
  rcases hend with hend | ⟨hdone, hfailed⟩
  · omega
  have hjk : j ≠ k := by
    rintro rfl
    exact hdone hpiece
  have hturn : turnOf clientThreadNum count (maxProgress - 1) =
      turnStart clientThreadNum count n := turnOf_eq (by omega) (by omega)
  rcases hsafe with h0 | ⟨q, hq, hq', hawaited, hthrew⟩ | hall
  · omega
  · exact h.quiet q (hturn ▸ hq) hq' hawaited hthrew
  · refine hall _ (by omega) (by omega) ?_ hfailed
    intro q hq hq'
    rw [turnOf_eq (n := n) (by omega) (by omega)] at hq'
    obtain ⟨i, rfl⟩ := Nat.exists_eq_add_of_le hq'
    exact (hwaited i (by omega)).2

theorem no_overlap (hsafe : Safe maxProgress clientThreadNum outcome count)
    (h : Runs maxProgress clientThreadNum outcome (GatherOrder.init count) s)
    (hpc : s.pc = .gather) : s.running = ∅ := by
  obtain ⟨n, hinv⟩ := Reachable.invariant
    (I := fun s ↦ ∃ n, Inv maxProgress clientThreadNum outcome count n s) h ⟨0, Inv.init⟩
    fun _ _ _ ⟨_, ht⟩ _ hs ↦ ht.step hs
  exact hinv.running_empty hsafe hpc

end Safety

section Overlap

variable {maxProgress clientThreadNum : ℕ} {outcome : ℕ → Outcome} {a : ℕ} {s : State}

theorem Runs.head {t u : State} {b : Act}
    (ht : step maxProgress clientThreadNum outcome s b = some t)
    (h : Runs maxProgress clientThreadNum outcome t u) :
    Runs maxProgress clientThreadNum outcome s u :=
  (Reachable.next .start trivial ht).trans h

/-- The state after `k + 1` turns of the inner loop from piece `a` on. -/
def handedOut (maxProgress a k : ℕ) : State :=
  ⟨a + k + 1, a + k + 1, List.range' a (k + 1), Finset.Ico a (a + k + 1),
    if a + k + 1 ≥ maxProgress then .wait 0 else .handOut (k + 1)⟩

theorem step_first (hT : 0 < clientThreadNum) (ha : a < maxProgress) (progress : ℕ) :
    step maxProgress clientThreadNum outcome ⟨a, progress, [], ∅, .handOut 0⟩ .main =
      some (handedOut maxProgress a 0) := by
  simp only [step, if_pos hT, if_pos (Nat.succ_le_of_lt ha), Nat.add_sub_cancel, handedOut]
  simp

theorem step_next {k : ℕ} (hk : k + 1 < clientThreadNum) (ha : a + k + 1 < maxProgress) :
    step maxProgress clientThreadNum outcome (handedOut maxProgress a k) .main =
      some (handedOut maxProgress a (k + 1)) := by
  have hico : Finset.Ico a (a + (k + 1) + 1) =
      insert (a + k + 1) (Finset.Ico a (a + k + 1)) := by
    ext piece
    rw [Finset.mem_insert, Finset.mem_Ico, Finset.mem_Ico]
    omega
  simp only [step, handedOut, if_neg (not_le_of_gt ha), if_pos hk,
    if_pos (show a + k + 1 + 1 ≤ maxProgress from ha), Nat.add_sub_cancel, hico]
  rw [List.range'_concat (n := k + 1), Nat.one_mul]
  rfl

theorem runs_handOut (hT : 0 < clientThreadNum) (ha : a < maxProgress) (progress : ℕ) {k : ℕ}
    (hk : k < clientThreadNum) (hlast : a + k < maxProgress) :
    Runs maxProgress clientThreadNum outcome ⟨a, progress, [], ∅, .handOut 0⟩
      (handedOut maxProgress a k) := by
  induction k with
  | zero => exact .next .start trivial (step_first hT ha progress)
  | succ k ih => exact .next (ih (by omega) (by omega)) trivial (step_next hk hlast)

/-- The calls may end in the order they were started in. -/
theorem runs_finish {b c d : ℕ} (hbc : b ≤ c) (hcd : c ≤ d) :
    Runs maxProgress clientThreadNum outcome { s with running := Finset.Ico b d }
      { s with running := Finset.Ico c d } := by
  induction c, hbc using Nat.le_induction with
  | base => exact .start
  | succ c hbc ih =>
    refine .next (a := .finish c) (ih (by omega)) trivial ?_
    have herase : (Finset.Ico c d).erase c = Finset.Ico (c + 1) d := by
      ext p
      rw [Finset.mem_erase, Finset.mem_Ico, Finset.mem_Ico]
      omega
    rw [step]
    dsimp only
    rw [if_pos (Finset.mem_Ico.mpr ⟨le_rfl, hcd⟩), herase]

/-- The futures of the finished calls are waited for one after the other. -/
theorem runs_wait {b len k : ℕ} (hvec : s.clientAsyncVec = List.range' a len)
    (hrunning : s.running = Finset.Ico (a + b) (a + len)) (hpc : s.pc = .wait 0) (hb : k ≤ b)
    (hlen : k ≤ len) (hok : ∀ j < k, outcome (a + j) = .ok) :
    Runs maxProgress clientThreadNum outcome s { s with pc := .wait k } := by
  induction k with
  | zero =>
    rw [← hpc]
    exact .start
  | succ k ih =>
    refine .next (a := .main) (ih (by omega) (by omega) fun j hj ↦ hok j (by omega)) trivial ?_
    have hpiece : s.clientAsyncVec[k]? = some (a + k) := by
      rw [hvec, List.getElem?_range' hlen, Nat.one_mul]
    have hdone : a + k ∉ s.running := by
      rw [hrunning, Finset.mem_Ico]
      omega
    simp only [step, hpiece, if_neg hdone, hok k (by omega)]

/-- The loop over the futures ends behind them all, or at one that yields `false`. -/
theorem runs_gathers {b len k : ℕ} (hvec : s.clientAsyncVec = List.range' a len)
    (hrunning : s.running = Finset.Ico (a + b) (a + len)) (hpc : s.pc = .wait 0) (hb : k ≤ b)
    (hlen : k ≤ len) (hok : ∀ j < k, outcome (a + j) = .ok)
    (hend : k = len ∨ k < b ∧ outcome (a + k) = .failed) :
    Runs maxProgress clientThreadNum outcome s (s.gathers maxProgress) := by
  refine .next (a := .main) (runs_wait hvec hrunning hpc hb hlen hok) trivial ?_
  rcases Nat.lt_or_eq_of_le hlen with hlt | rfl
  · obtain ⟨hkb, hfailed⟩ := hend.resolve_left hlt.ne
    have hpiece : s.clientAsyncVec[k]? = some (a + k) := by
      rw [hvec, List.getElem?_range' hlt, Nat.one_mul]
    have hdone : a + k ∉ s.running := by
      rw [hrunning, Finset.mem_Ico]
      omega
    simp only [step, hpiece, if_neg hdone, hfailed]
    rfl
  · have hnone : s.clientAsyncVec[k]? = none := by
      rw [hvec, List.getElem?_eq_none_iff, List.length_range']
    simp only [step, hnone]
    rfl

/-- The future at which the loop ends, in a turn that no exception ends. -/
theorem exists_end {len : ℕ} (hthrew : ∀ j < len, (∀ i < j, outcome (a + i) = .ok) →
      outcome (a + j) ≠ .threw) :
    ∃ k ≤ len, (∀ j < k, outcome (a + j) = .ok) ∧
      (k = len ∨ k < len ∧ outcome (a + k) = .failed) := by
  by_cases hall : ∀ j < len, outcome (a + j) = .ok
  · exact ⟨len, le_rfl, hall, Or.inl rfl⟩
  · have hex : ∃ j, j < len ∧ outcome (a + j) ≠ .ok := by
      simpa only [not_forall, exists_prop] using hall
    obtain ⟨hlt, hne⟩ := Nat.find_spec hex
    have hok : ∀ i < Nat.find hex, outcome (a + i) = .ok := by
      intro i hi
      by_contra hi'
      exact Nat.find_min hex hi ⟨by omega, hi'⟩
    refine ⟨Nat.find hex, hlt.le, hok, Or.inr ⟨hlt, ?_⟩⟩
    have hnot := hthrew _ hlt hok
    generalize outcome (a + Nat.find hex) = o at hne hnot ⊢
    cases o with
    | ok => exact absurd rfl hne
    | failed => rfl
    | threw => exact absurd rfl hnot

/-- The state in which the futures of the pieces from `a` to `a + len` are waited for, the calls
before `b` being finished. -/
def waiting (a len b : ℕ) : State :=
  ⟨a + len, a + len, List.range' a len, Finset.Ico b (a + len), .wait 0⟩

/-- A turn that is not the last one ends with all its calls finished. -/
theorem runs_turn (hT : 0 < clientThreadNum) (ha : a + clientThreadNum < maxProgress)
    (hthrew : ∀ j < clientThreadNum, (∀ i < j, outcome (a + i) = .ok) →
      outcome (a + j) ≠ .threw) (progress : ℕ) :
    Runs maxProgress clientThreadNum outcome ⟨a, progress, [], ∅, .handOut 0⟩
      ⟨a + clientThreadNum, a + clientThreadNum, [], ∅, .handOut 0⟩ := by
  obtain ⟨T, rfl⟩ := Nat.exists_eq_succ_of_ne_zero hT.ne'
  have hout : Runs maxProgress (T + 1) outcome ⟨a, progress, [], ∅, .handOut 0⟩
      (handedOut maxProgress a T) :=
    runs_handOut hT (by omega) progress (by omega) (by omega)
  have hwait : step maxProgress (T + 1) outcome (handedOut maxProgress a T) .main =
      some (waiting a (T + 1) a) := by
    simp only [step, handedOut, if_neg (show ¬a + T + 1 ≥ maxProgress by omega), lt_irrefl,
      if_false]
    rfl
  have hfinish : Runs maxProgress (T + 1) outcome (waiting a (T + 1) a)
      (waiting a (T + 1) (a + (T + 1))) :=
    runs_finish (s := waiting a (T + 1) a) (Nat.le_add_right _ _) le_rfl
  obtain ⟨k, hk, hok, hend⟩ := exists_end hthrew
  have hgathers : Runs maxProgress (T + 1) outcome (waiting a (T + 1) (a + (T + 1)))
      ((waiting a (T + 1) (a + (T + 1))).gathers maxProgress) :=
    runs_gathers rfl rfl rfl hk hk hok hend
  have hmore : ¬(waiting a (T + 1) (a + (T + 1))).progress ≥ maxProgress := not_le_of_gt ha
  rw [State.gathers, if_neg hmore] at hgathers
  refine .next (a := .main) ((Reachable.next hout trivial hwait).trans (hfinish.trans hgathers))
    trivial ?_
  simp only [step, waiting, Finset.Ico_self, Finset.notMem_empty, not_false_eq_true, implies_true,
    if_true]
  rfl

theorem runs_turns {count : ℕ} (hT : 0 < clientThreadNum) {n : ℕ}
    (hn : turnStart clientThreadNum count n < maxProgress)
    (hquiet : Quiet clientThreadNum outcome count (turnStart clientThreadNum count n)) :
    ∃ progress, Runs maxProgress clientThreadNum outcome (init count)
      ⟨turnStart clientThreadNum count n, progress, [], ∅, .handOut 0⟩ := by
  induction n with
  | zero => exact ⟨0, .start⟩
  | succ n ih =>
    rw [turnStart_succ] at hn hquiet ⊢
    obtain ⟨progress, hruns⟩ := ih (by omega) fun piece hlt ↦ hquiet piece (by omega)
    refine ⟨_, hruns.trans (runs_turn hT hn (fun j hj hok ↦ ?_) progress)⟩
    have hcount := le_turnStart clientThreadNum count n
    refine hquiet _ (by omega) (by omega) ?_
    intro piece hlt hle
    rw [turnOf_eq (n := n) (by omega) (by omega)] at hle
    obtain ⟨i, rfl⟩ := Nat.exists_eq_add_of_le hle
    exact hok i (by omega)

/-- The last turn, with `clientRun` in `gather` while the call behind the failed one runs. -/
theorem runs_last {j : ℕ} (hlast : maxProgress ≤ a + clientThreadNum) (hj : a + j + 1 < maxProgress)
    (hok : ∀ i < j, outcome (a + i) = .ok) (hfailed : outcome (a + j) = .failed) (progress : ℕ) :
    ∃ t, Runs maxProgress clientThreadNum outcome ⟨a, progress, [], ∅, .handOut 0⟩ t ∧
      t.pc = .gather ∧ a + j + 1 ∈ t.running := by
  obtain ⟨k, rfl⟩ : ∃ k, maxProgress = a + k + 1 := ⟨maxProgress - a - 1, by omega⟩
  have hout : Runs (a + k + 1) clientThreadNum outcome ⟨a, progress, [], ∅, .handOut 0⟩
      (handedOut (a + k + 1) a k) :=
    runs_handOut (by omega) (by omega) progress (by omega) (by omega)
  rw [handedOut, if_pos (show a + k + 1 ≥ a + k + 1 from le_rfl)] at hout
  have hfinish : Runs (a + k + 1) clientThreadNum outcome (waiting a (k + 1) a)
      (waiting a (k + 1) (a + (j + 1))) :=
    runs_finish (s := waiting a (k + 1) a) (Nat.le_add_right _ _) (by omega)
  have hgathers : Runs (a + k + 1) clientThreadNum outcome (waiting a (k + 1) (a + (j + 1)))
      ((waiting a (k + 1) (a + (j + 1))).gathers (a + k + 1)) :=
    runs_gathers rfl rfl rfl (by omega) (by omega) hok (Or.inr ⟨j.lt_succ_self, hfailed⟩)
  refine ⟨_, hout.trans (hfinish.trans hgathers), ?_, ?_⟩
  · exact if_pos (show a + (k + 1) ≥ a + k + 1 by omega)
  · exact Finset.mem_Ico.mpr ⟨by omega, by omega⟩

end Overlap

/-- `gather` never overlaps a call, whatever the order they finish in, exactly when no call of the
last turn but the one of the last piece is seen to fail. -/
theorem no_overlap_iff (maxProgress clientThreadNum : ℕ) (outcome : ℕ → Outcome) (count : ℕ) :
    (∀ s, Runs maxProgress clientThreadNum outcome (init count) s → s.pc = .gather →
      s.running = ∅) ↔ Safe maxProgress clientThreadNum outcome count := by
  refine ⟨fun h ↦ ?_, fun hsafe s hruns hpc ↦ no_overlap hsafe hruns hpc⟩
  by_contra hsafe
  rw [Safe, not_or, not_or] at hsafe
  obtain ⟨hT, hquiet, hfail⟩ := hsafe
  push Not at hquiet hfail
  obtain ⟨piece, hlt, hle, hawaited, hfailed⟩ := hfail
  set n := (maxProgress - 1 - count) / clientThreadNum with hn
  have hstart : turnOf clientThreadNum count (maxProgress - 1) =
      turnStart clientThreadNum count n := rfl
  have hcount := le_turnStart clientThreadNum count n
  have hdiv := Nat.div_add_mod (maxProgress - 1 - count) clientThreadNum
  have hmod := Nat.mod_lt (maxProgress - 1 - count) (Nat.pos_of_ne_zero hT)
  have hbegin : turnStart clientThreadNum count n + (maxProgress - 1 - count) % clientThreadNum =
      maxProgress - 1 := by
    rw [turnStart, Nat.add_assoc, hn, hdiv]
    omega
  rw [hstart] at hle hquiet
  obtain ⟨j, rfl⟩ := Nat.exists_eq_add_of_le hle
  obtain ⟨progress, hruns⟩ := runs_turns (Nat.pos_of_ne_zero hT)
    (show turnStart clientThreadNum count n < maxProgress by omega)
    fun piece hpiece hle hawaited hthrew ↦ hquiet piece hpiece hle hawaited hthrew
  obtain ⟨t, hlast, hpc, hmem⟩ := runs_last
    (show maxProgress ≤ turnStart clientThreadNum count n + clientThreadNum by omega)
    (show turnStart clientThreadNum count n + j + 1 < maxProgress by omega)
    (fun i hi ↦ hawaited _ (by omega) (by rw [turnOf_eq (n := n) hle (by omega)]; omega)) hfailed
    progress
  rw [h t (hruns.trans hlast) hpc] at hmem
  exact Finset.notMem_empty _ hmem

/-- Two pieces and two threads: the first call fails while the second one still runs. -/
theorem gather_overlaps_download :
    ¬∀ (maxProgress clientThreadNum : ℕ) (outcome : ℕ → Outcome) (s : State),
      Runs maxProgress clientThreadNum outcome (init 0) s → s.pc = .gather → s.running = ∅ := by
  intro h
  have hexec : exec (step 2 2 fun piece ↦ if piece = 0 then .failed else .ok) (init 0)
      [.main, .main, .finish 0, .main] = some ⟨2, 2, [0, 1], {1}, .gather⟩ := by decide
  have hempty := h 2 2 _ _ (Reachable.of_exec hexec) rfl
  exact absurd hempty (by decide)

end ShannonNet.Client.GatherOrder
