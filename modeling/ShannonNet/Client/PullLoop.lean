import ShannonNet.Client.GatherOrder

namespace ShannonNet.Client.GatherOrder

open Library.Runs

inductive Call
  | process (progress : ℕ)
  | gather (progress : ℕ)
  deriving DecidableEq

section Calls

variable (maxProgress clientThreadNum : ℕ) (outcome : ℕ → Outcome)

/-- The call of `Decrypt` that a step of `clientRun` starts. -/
def State.call (s : State) : Act → Option Call
  | .finish _ => none
  | .main =>
    match s.pc with
    | .handOut clientThreadId =>
      if clientThreadId < clientThreadNum ∧ s.clientIndexCount + 1 ≤ maxProgress then
        some (.process s.clientIndexCount)
      else none
    | .gather => some (.gather s.progress)
    | _ => none

/-- A step beside the list of the calls started so far. -/
def logged (s : State × List Call) (a : Act) : Option (State × List Call) :=
  (step maxProgress clientThreadNum outcome s.1 a).map fun t ↦
    (t, s.2 ++ (s.1.call maxProgress clientThreadNum a).toList)

/-- The first `n` pieces, each handed out once and in order. -/
def handed (n : ℕ) : List Call := (List.range n).map .process

/-- The calls up to each place of the loop, which is entered with the counter at zero. Past the
loop either everything is handed out and gathered, or an exception has kept `gather` away. -/
def Told (s : State) (calls : List Call) : Prop :=
  match s.pc with
  | .handOut _ => s.clientIndexCount < maxProgress ∧ calls = handed s.clientIndexCount
  | .wait _ | .gather => s.clientAsyncVec ≠ [] ∧ calls = handed s.progress
  | .destroy false => s.clientIndexCount < maxProgress ∧ calls = handed s.clientIndexCount
  | .destroy true | .left =>
    Quiet clientThreadNum outcome 0 maxProgress ∧
        calls = handed maxProgress ++ [.gather maxProgress] ∨
      ¬Quiet clientThreadNum outcome 0 maxProgress ∧ ∀ progress, .gather progress ∉ calls

end Calls

variable {maxProgress clientThreadNum : ℕ} {outcome : ℕ → Outcome} {n : ℕ} {s t : State}
  {calls : List Call}

theorem handed_succ (n : ℕ) : handed (n + 1) = handed n ++ [.process n] := by
  simp [handed, List.range_succ]

theorem gather_notMem_handed (n progress : ℕ) : Call.gather progress ∉ handed n := by
  simp [handed]

/-- An exception at a future that is waited for is one of the pattern's. -/
theorem Inv.not_quiet (h : Inv maxProgress clientThreadNum outcome 0 n s) {k : ℕ}
    (hpc : s.pc = .wait k) (hk : k < s.clientAsyncVec.length)
    (hthrew : outcome (turnStart clientThreadNum 0 n + k) = .threw) :
    ¬Quiet clientThreadNum outcome 0 maxProgress := by
  have hplace := h.place
  simp only [State.At, hpc] at hplace
  obtain ⟨hprogress, -, hwaited⟩ := hplace
  obtain ⟨hp, hmax⟩ := hprogress (List.ne_nil_of_length_pos (by omega))
  have hsize := h.size
  intro hquiet
  refine hquiet _ (by omega) (Nat.zero_le _) ?_ hthrew
  intro earlier hlt hle
  rw [turnOf_eq (n := n) (by omega) (by omega)] at hle
  obtain ⟨j, rfl⟩ := Nat.exists_eq_add_of_le hle
  exact (hwaited j (by omega)).2

/-- The loop comes to `gather` with every piece handed out and no exception seen. -/
theorem Inv.quiet_gather (h : Inv maxProgress clientThreadNum outcome 0 n s)
    (hpc : s.pc = .gather) (hne : s.clientAsyncVec ≠ []) :
    s.progress = maxProgress ∧ Quiet clientThreadNum outcome 0 maxProgress := by
  have hplace := h.place
  simp only [State.At, hpc] at hplace
  obtain ⟨hprogress, hlast, k, hwaited, hend⟩ := hplace
  obtain ⟨hp, hmax⟩ := hprogress hne
  have hquiet := h.quiet_turn h.size (fun j hj ↦ (hwaited j hj).2) (hend.imp_right And.right)
  have heq : s.progress = maxProgress := by omega
  rw [← hp, heq] at hquiet
  exact ⟨heq, hquiet⟩

theorem Told.handOut (hthread : 0 < clientThreadNum)
    (h : Inv maxProgress clientThreadNum outcome 0 n s)
    (hcalls : Told maxProgress clientThreadNum outcome s calls) {k : ℕ} (hpc : s.pc = .handOut k)
    (ht : step maxProgress clientThreadNum outcome s .main = some t) :
    Told maxProgress clientThreadNum outcome t
      (calls ++ (s.call maxProgress clientThreadNum .main).toList) := by
  have hplace := h.place
  simp only [State.At, hpc] at hplace
  simp only [Told, hpc] at hcalls
  obtain ⟨hlt, rfl⟩ := hcalls
  simp only [step, hpc] at ht
  by_cases hk : k < clientThreadNum
  · rw [if_pos hk, if_pos (Nat.succ_le_of_lt hlt)] at ht
    obtain rfl := Option.some.inj ht
    simp only [State.call, hpc, if_pos (And.intro hk (Nat.succ_le_of_lt hlt)), Option.toList_some]
    rw [← handed_succ, Told]
    by_cases hlast : s.clientIndexCount + 1 ≥ maxProgress
    · simp only [if_pos hlast]
      exact ⟨by simp, trivial⟩
    · simp only [if_neg hlast]
      exact ⟨by omega, trivial⟩
  · rw [if_neg hk] at ht
    obtain rfl := Option.some.inj ht
    obtain ⟨hcount, hlen, hprogress⟩ := hplace
    simp only [State.call, hpc, hk, false_and, if_false, Option.toList_none, List.append_nil, Told]
    refine ⟨List.ne_nil_of_length_pos (by omega), ?_⟩
    rw [hcount, (hprogress (by omega)).1]

theorem Told.gathers (h : Inv maxProgress clientThreadNum outcome 0 n s) {k : ℕ}
    (hpc : s.pc = .wait k) (hne : s.clientAsyncVec ≠ []) :
    Told maxProgress clientThreadNum outcome (s.gathers maxProgress) (handed s.progress) := by
  have hplace := h.place
  simp only [State.At, hpc] at hplace
  obtain ⟨hprogress, hcount, -⟩ := hplace
  by_cases hlast : s.progress ≥ maxProgress
  · rw [State.gathers, if_pos hlast, Told]
    exact ⟨hne, rfl⟩
  · rw [State.gathers, if_neg hlast, Told]
    have hp := (hprogress hne).1
    obtain ⟨hc, hlen⟩ := hcount (by omega)
    exact ⟨by dsimp only; omega, by dsimp only; rw [hp, hc, hlen]⟩

theorem Told.wait (h : Inv maxProgress clientThreadNum outcome 0 n s)
    (hcalls : Told maxProgress clientThreadNum outcome s calls) {k : ℕ} (hpc : s.pc = .wait k)
    (ht : step maxProgress clientThreadNum outcome s .main = some t) :
    Told maxProgress clientThreadNum outcome t calls := by
  simp only [Told, hpc] at hcalls
  obtain ⟨hne, rfl⟩ := hcalls
  obtain ⟨-, rfl⟩ | ⟨-, -, -, rfl⟩ | ⟨hk, hthrew, rfl⟩ := h.wait_cases hpc ht
  · exact .gathers h hpc hne
  · exact ⟨hne, rfl⟩
  · exact .inr ⟨h.not_quiet hpc hk hthrew, gather_notMem_handed _⟩

theorem Told.step (hthread : 0 < clientThreadNum)
    (h : Inv maxProgress clientThreadNum outcome 0 n s)
    (hcalls : Told maxProgress clientThreadNum outcome s calls) {a : Act}
    (ht : step maxProgress clientThreadNum outcome s a = some t) :
    Told maxProgress clientThreadNum outcome t
      (calls ++ (s.call maxProgress clientThreadNum a).toList) := by
  cases a with
  | finish piece =>
    simp only [GatherOrder.step] at ht
    split_ifs at ht
    obtain rfl := Option.some.inj ht
    rw [State.call, Option.toList_none, List.append_nil]
    exact hcalls
  | main =>
    cases hpc : s.pc with
    | handOut k => exact hcalls.handOut hthread h hpc ht
    | wait k =>
      simp only [State.call, hpc, Option.toList_none, List.append_nil]
      exact hcalls.wait h hpc ht
    | gather =>
      simp only [Told, hpc] at hcalls
      obtain ⟨hne, rfl⟩ := hcalls
      obtain ⟨hprogress, hquiet⟩ := h.quiet_gather hpc hne
      simp only [GatherOrder.step, hpc] at ht
      obtain rfl := Option.some.inj ht
      simp only [State.call, hpc, hprogress, Option.toList_some]
      exact .inl ⟨hquiet, rfl⟩
    | destroy leave =>
      simp only [State.call, hpc, Option.toList_none, List.append_nil]
      obtain ⟨-, rfl⟩ := step_destroy hpc ht
      unfold Told at hcalls
      rw [hpc] at hcalls
      cases leave with
      | true => exact hcalls
      | false => exact hcalls
    | left =>
      simp only [GatherOrder.step, hpc] at ht
      cases ht

/-- The steps left in a turn, beside those that the pieces still to be handed out account for. -/
def Pc.rank (clientThreadNum : ℕ) : Pc → ℕ
  | .handOut 0 | .left => 0
  | .handOut (_ + 1) => clientThreadNum + 4
  | .wait k => clientThreadNum - k + 3
  | .gather => 2
  | .destroy _ => 1

def State.rank (maxProgress clientThreadNum : ℕ) (s : State) : ℕ :=
  (maxProgress - s.clientIndexCount) * (clientThreadNum + 6) + s.running.card +
    s.pc.rank clientThreadNum

theorem rank_handOut (hthread : 0 < clientThreadNum)
    (hcalls : Told maxProgress clientThreadNum outcome s calls) {k : ℕ} (hpc : s.pc = .handOut k)
    (ht : step maxProgress clientThreadNum outcome s .main = some t) :
    t.rank maxProgress clientThreadNum < s.rank maxProgress clientThreadNum := by
  simp only [Told, hpc] at hcalls
  simp only [step, hpc] at ht
  by_cases hk : k < clientThreadNum
  · rw [if_pos hk, if_pos (Nat.succ_le_of_lt hcalls.1)] at ht
    obtain rfl := Option.some.inj ht
    have hcard := Finset.card_insert_le (s.clientIndexCount + 1 - 1) s.running
    -- the piece handed out pays for the rest of the turn
    have hleft : maxProgress - s.clientIndexCount =
        maxProgress - (s.clientIndexCount + 1) + 1 := by
      omega
    have hrank : (if s.clientIndexCount + 1 ≥ maxProgress then Pc.wait 0
        else .handOut (k + 1)).rank clientThreadNum ≤ clientThreadNum + 4 := by
      split_ifs <;> simp [Pc.rank]
    simp only [State.rank, hleft, Nat.add_mul, Nat.one_mul]
    omega
  · rw [if_neg hk] at ht
    obtain rfl := Option.some.inj ht
    obtain ⟨j, rfl⟩ : ∃ j, k = j + 1 := ⟨k - 1, by omega⟩
    simp only [State.rank, hpc, Pc.rank]
    omega

theorem rank_wait (h : Inv maxProgress clientThreadNum outcome 0 n s) {k : ℕ}
    (hpc : s.pc = .wait k) (ht : step maxProgress clientThreadNum outcome s .main = some t) :
    t.rank maxProgress clientThreadNum < s.rank maxProgress clientThreadNum := by
  have hsize := h.size
  obtain ⟨-, rfl⟩ | ⟨hk, -, -, rfl⟩ | ⟨-, -, rfl⟩ := h.wait_cases hpc ht
  · simp only [State.rank, State.gathers, hpc]
    split_ifs <;> simp only [Pc.rank] <;> omega
  · simp only [State.rank, hpc, Pc.rank]
    omega
  · simp only [State.rank, hpc, Pc.rank]
    omega

theorem rank_main (hthread : 0 < clientThreadNum)
    (h : Inv maxProgress clientThreadNum outcome 0 n s)
    (hcalls : Told maxProgress clientThreadNum outcome s calls)
    (ht : step maxProgress clientThreadNum outcome s .main = some t) :
    t.rank maxProgress clientThreadNum < s.rank maxProgress clientThreadNum := by
  cases hpc : s.pc with
  | handOut k => exact rank_handOut hthread hcalls hpc ht
  | wait k => exact rank_wait h hpc ht
  | gather =>
    simp only [step, hpc] at ht
    obtain rfl := Option.some.inj ht
    simp only [State.rank, hpc, Pc.rank]
    omega
  | destroy leave =>
    obtain ⟨-, rfl⟩ := step_destroy hpc ht
    cases leave <;> simp [State.rank, hpc, Pc.rank]
  | left =>
    simp only [step, hpc] at ht
    cases ht

theorem rank_finish {piece : ℕ}
    (ht : step maxProgress clientThreadNum outcome s (.finish piece) = some t) :
    t.rank maxProgress clientThreadNum < s.rank maxProgress clientThreadNum := by
  simp only [step] at ht
  split_ifs at ht with hmem
  obtain rfl := Option.some.inj ht
  have hcard := Finset.card_erase_lt_of_mem hmem
  simp only [State.rank]
  omega

/-- Only a call that still runs can hold `clientRun` up, and it may end. -/
theorem left_of_stuck (hstuck : ∀ a, step maxProgress clientThreadNum outcome s a = none) :
    s.pc = .left := by
  have hfinished : ∀ piece, piece ∉ s.running := by
    intro piece hmem
    have hfinish := hstuck (.finish piece)
    rw [step, if_pos hmem] at hfinish
    cases hfinish
  have hmain := hstuck .main
  cases hpc : s.pc with
  | left => rfl
  | handOut k =>
    simp only [step, hpc] at hmain
    split_ifs at hmain
  | wait k =>
    simp only [step, hpc] at hmain
    cases hpiece : s.clientAsyncVec[k]? with
    | none =>
      rw [hpiece] at hmain
      cases hmain
    | some piece =>
      simp only [hpiece, if_neg (hfinished piece)] at hmain
      cases hout : outcome piece <;> rw [hout] at hmain <;> cases hmain
  | gather =>
    simp only [step, hpc] at hmain
    cases hmain
  | destroy leave =>
    simp only [step, hpc, hfinished, not_false_eq_true, implies_true, if_true] at hmain
    cases hmain

/-- What holds in every state of the loop and of its calls. -/
def Counted (maxProgress clientThreadNum : ℕ) (outcome : ℕ → Outcome)
    (s : State × List Call) : Prop :=
  (∃ n, Inv maxProgress clientThreadNum outcome 0 n s.1) ∧
    Told maxProgress clientThreadNum outcome s.1 s.2

variable (maxProgress outcome) in
theorem counted_step (hthread : 0 < clientThreadNum) (s : State × List Call) (a : Act)
    (t : State × List Call) (hs : Counted maxProgress clientThreadNum outcome s)
    (ht : logged maxProgress clientThreadNum outcome s a = some t) :
    Counted maxProgress clientThreadNum outcome t ∧ True ∧
      t.1.rank maxProgress clientThreadNum < s.1.rank maxProgress clientThreadNum := by
  obtain ⟨⟨n, hinv⟩, hcalls⟩ := hs
  obtain ⟨u, hu, rfl⟩ := Option.map_eq_some_iff.mp ht
  refine ⟨⟨hinv.step hu, hcalls.step hthread hinv hu⟩, trivial, ?_⟩
  cases a with
  | main => exact rank_main hthread hinv hcalls hu
  | finish piece => exact rank_finish hu

variable (clientThreadNum outcome) in
theorem counted_init (hprogress : 0 < maxProgress) :
    Counted maxProgress clientThreadNum outcome (init 0, []) :=
  ⟨⟨0, Inv.init⟩, hprogress, rfl⟩

/-- The loop always ends, and where it ends every piece was handed out once, in order, and the
whole gathered once, exactly when no future that is waited for rethrows an exception. -/
theorem pulls_every_piece_once_iff {maxProgress clientThreadNum : ℕ} (hprogress : 1 ≤ maxProgress)
    (hthread : 1 ≤ clientThreadNum) (outcome : ℕ → Outcome) :
    ((∀ acts t, exec (logged maxProgress clientThreadNum outcome) (init 0, []) acts = some t →
        acts.length ≤ maxProgress * (clientThreadNum + 6)) ∧
      ∀ t, Reachable (logged maxProgress clientThreadNum outcome) (fun _ _ ↦ True) (init 0, []) t →
        (∀ a, logged maxProgress clientThreadNum outcome t a = none) →
        t.1.pc = .left ∧ t.2 = (List.range maxProgress).map .process ++ [.gather maxProgress]) ↔
      ∀ piece < maxProgress, Awaited clientThreadNum outcome 0 piece → outcome piece ≠ .threw := by
  have hquiet : (∀ piece < maxProgress, Awaited clientThreadNum outcome 0 piece →
      outcome piece ≠ .threw) ↔ Quiet clientThreadNum outcome 0 maxProgress :=
    forall₂_congr fun piece _ ↦ by rw [imp_iff_right (Nat.zero_le piece)]
  rw [hquiet]
  have hinit := counted_init clientThreadNum outcome hprogress
  have hstep := counted_step maxProgress outcome hthread
  have hend (t : State × List Call) (ht : Counted maxProgress clientThreadNum outcome t)
      (hstuck : ∀ a, logged maxProgress clientThreadNum outcome t a = none) :
      t.1.pc = .left ∧ (Quiet clientThreadNum outcome 0 maxProgress ∧
          t.2 = handed maxProgress ++ [.gather maxProgress] ∨
        ¬Quiet clientThreadNum outcome 0 maxProgress ∧ ∀ progress, .gather progress ∉ t.2) := by
    have hleft := left_of_stuck fun a ↦ Option.map_eq_none_iff.mp (hstuck a)
    have hcalls := ht.2
    simp only [Told, hleft] at hcalls
    exact ⟨hleft, hcalls⟩
  constructor
  · rintro ⟨-, hall⟩
    obtain ⟨t, hrun, hstuck⟩ := exists_stuck hstep _ hinit
    have ht := hrun.invariant hinit fun s a t hs _ h ↦ (hstep s a t hs h).1
    obtain ⟨hquiet, -⟩ | ⟨-, hnot⟩ := (hend t ht hstuck).2
    · exact hquiet
    · refine absurd ?_ (hnot maxProgress)
      rw [(hall t hrun hstuck).2]
      exact List.mem_append_right _ List.mem_cons_self
  · intro hquiet
    refine ⟨fun acts t h ↦ ?_, fun t hrun hstuck ↦ ?_⟩
    · have hle := exec_length_le hstep hinit h
      simpa [State.rank, init, Pc.rank] using hle
    · have ht := hrun.invariant hinit fun s a t hs _ h ↦ (hstep s a t hs h).1
      obtain ⟨hleft, hcalls⟩ := hend t ht hstuck
      exact ⟨hleft, (hcalls.resolve_right fun h ↦ h.1 hquiet).2⟩

/-- The second call fails, the others succeed. -/
def exampleOutcome (piece : ℕ) : Outcome := if piece = 1 then .failed else .ok

theorem pulls_five_pieces_once :
    (∀ acts t, exec (logged 5 2 exampleOutcome) (init 0, []) acts = some t →
        acts.length ≤ 5 * (2 + 6)) ∧
      ∀ t, Reachable (logged 5 2 exampleOutcome) (fun _ _ ↦ True) (init 0, []) t →
        (∀ a, logged 5 2 exampleOutcome t a = none) →
        t.1.pc = .left ∧ t.2 = (List.range 5).map .process ++ [.gather 5] := by
  refine (pulls_every_piece_once_iff (by decide) (by decide) exampleOutcome).mpr ?_
  intro piece _ _
  unfold exampleOutcome
  split_ifs <;> decide

/-- The call for the first of two pieces throws: the second one is never asked for, and nothing is
gathered. -/
theorem exception_ends_pull_loop :
    ¬∀ (maxProgress clientThreadNum : ℕ) (outcome : ℕ → Outcome), 1 ≤ maxProgress →
      1 ≤ clientThreadNum → ∀ t,
      Reachable (logged maxProgress clientThreadNum outcome) (fun _ _ ↦ True) (init 0, []) t →
      (∀ a, logged maxProgress clientThreadNum outcome t a = none) →
      t.2 = (List.range maxProgress).map .process ++ [.gather maxProgress] := by
  intro h
  have hexec : exec (logged 2 1 fun _ ↦ .threw) (init 0, [])
      [.main, .main, .finish 0, .main, .main] = some (⟨1, 1, [], ∅, .left⟩, [.process 0]) := by
    decide
  have hstuck : ∀ a, logged 2 1 (fun _ ↦ .threw) (⟨1, 1, [], ∅, .left⟩, [.process 0]) a = none := by
    rintro (_ | piece)
    · rfl
    · rw [logged, step, if_neg (Finset.notMem_empty piece)]
      rfl
  exact absurd (h 2 1 _ (by decide) (by decide) _ (.of_exec hexec) hstuck) (by decide)

end ShannonNet.Client.GatherOrder
