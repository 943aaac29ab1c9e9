import ShannonNet.Client.Pull
import ShannonNet.Generator.Script
import ShannonNet.Library.Runs
import ShannonNet.Server.GetData

namespace ShannonNet.Generator.Publication

open Library.Runs Server

variable (cfg : Config) (dir : ℕ → Bool) {ι : Type} (req : ι → GetData.Request cfg)

/-- One index between its generation and its transfer: the generator iterations of both sources,
the client that polls and pulls, the `get_data` requests, and what the `zincrby`s did so far. -/
structure State (ι : Type) where
  slot : Slot
  generator : Source → Pc
  client : Client.Pull
  request : ι → GetData.Pc
  incrs : Source → ℕ
  handed : List ℕ

inductive Act (ι : Type)
  | generator (source : Source) (o : Outcome)
  | client
  | request (i : ι)

def incr (incrs : Source → ℕ) (source : Source) : Source → ℕ :=
  Function.update incrs source (incrs source + 1)

/-- A generator initialises a counter only while it is absent. -/
def FreshCount (s : State ι) : Act ι → Prop
  | .generator source _ => s.generator source = .zaddCount → s.slot.count source = none
  | _ => True

/-- Every `zincrby` of a visible index is in its counter, and no piece was handed out twice. -/
def NoLostIncrement (s : State ι) : Prop :=
  (∀ source, (s.slot.time source).isSome → (s.slot.count source).getD 0 = s.incrs source) ∧
    s.handed.Nodup

structure Initial (s : State ι) : Prop where
  time : ∀ source, s.slot.time source = none
  count : ∀ source, s.slot.count source = none
  client : s.client = .serverTime
  incrs : ∀ source, s.incrs source = 0
  handed : s.handed = []

structure Invariant (s : State ι) : Prop where
  count : ∀ source, (s.slot.count source).getD 0 = s.incrs source
  handed : s.handed.Nodup
  handed_lt : ∀ p ∈ s.handed, p < s.incrs .client

theorem Initial.invariant {s : State ι} (h : Initial s) : Invariant s where
  count source := by rw [h.count, h.incrs]; rfl
  handed := by rw [h.handed]; exact List.nodup_nil
  handed_lt p hp := by rw [h.handed] at hp; exact absurd hp (by simp)

theorem invariant_client {s t : State ι} {c : Client.Pull} {slot : Slot} {piece : Option ℕ}
    (hs : Invariant s) (h : s.client.step cfg s.slot = some (c, slot, piece)) (ht : t.slot = slot)
    (hincrs : t.incrs = if s.client = .pull then incr s.incrs .client else s.incrs)
    (hhanded : t.handed = s.handed ++ piece.toList) : Invariant t := by
  rcases Client.Pull.step_cases h with ⟨hc, rfl, rfl⟩ | ⟨hc, rfl, hpiece⟩
  · rw [if_neg hc] at hincrs
    rw [Option.toList_none, List.append_nil] at hhanded
    refine ⟨?_, by rw [hhanded]; exact hs.handed, ?_⟩
    · intro source
      rw [ht, hincrs]
      exact hs.count source
    · intro p hp
      rw [hhanded] at hp
      rw [hincrs]
      exact hs.handed_lt p hp
  · rw [if_pos hc] at hincrs
    have hnew (p : ℕ) (hp : p ∈ piece.toList) : p = s.incrs .client := by
      rw [hpiece p (Option.mem_toList.mp hp)]
      exact hs.count .client
    refine ⟨?_, ?_, ?_⟩
    · intro source
      rw [ht, hincrs, incr]
      by_cases hsrc : source = .client
      · subst hsrc
        simp only [Function.update_self, Option.getD_some, hs.count]
      · simp only [Function.update_of_ne hsrc, hs.count]
    · rw [hhanded, List.nodup_append]
      refine ⟨hs.handed, ?_, ?_⟩
      · cases piece <;> simp
      · intro p hp q hq hpq
        have hlt := hs.handed_lt p hp
        rw [hpq, hnew q hq] at hlt
        exact lt_irrefl _ hlt
    · intro p hp
      rw [hincrs, incr, Function.update_self]
      rw [hhanded, List.mem_append] at hp
      rcases hp with hp | hp
      · exact Nat.lt_succ_of_lt (hs.handed_lt p hp)
      · rw [hnew p hp]
        exact Nat.lt_succ_self _

theorem Invariant.of_count {s t : State ι} (hs : Invariant s)
    (hcount : ∀ source, (t.slot.count source).getD 0 = t.incrs source)
    (hincrs : t.incrs .client = s.incrs .client) (hhanded : t.handed = s.handed) : Invariant t :=
  ⟨hcount, by rw [hhanded]; exact hs.handed, by rw [hhanded, hincrs]; exact hs.handed_lt⟩

variable [DecidableEq ι]

def State.step (s : State ι) : Act ι → Option (State ι)
  | .generator source o =>
    let r := (s.generator source).step source o s.slot
    some { s with slot := r.2, generator := Function.update s.generator source r.1 }
  | .client =>
    (s.client.step cfg s.slot).map fun (c, slot, piece) ↦
      { s with
        slot := slot
        client := c
        incrs := if s.client = .pull then incr s.incrs .client else s.incrs
        handed := s.handed ++ piece.toList }
  | .request i =>
    ((s.request i).step dir (req i) s.slot).map fun (pc, slot) ↦
      { s with
        slot := slot
        request := Function.update s.request i pc
        incrs := if (s.request i).isZincrby then incr s.incrs .server else s.incrs }

theorem invariant_step {s t : State ι} {a : Act ι} (hs : Invariant s) (hfresh : FreshCount s a)
    (h : s.step cfg dir req a = some t) : Invariant t := by
  cases a with
  | generator source o =>
    cases h
    refine hs.of_count ?_ rfl rfl
    intro src
    rw [← hs.count src]
    by_cases hpc : s.generator source = .zaddCount
    · simp only [hpc, Pc.step]
      by_cases hsrc : src = source
      · subst hsrc
        rw [Function.update_self, hfresh hpc]
        rfl
      · rw [Function.update_of_ne hsrc]
    · rw [Pc.step_count hpc]
  | client =>
    obtain ⟨⟨c, slot, piece⟩, hc, rfl⟩ := Option.map_eq_some_iff.mp h
    exact invariant_client cfg hs hc rfl rfl rfl
  | request i =>
    obtain ⟨⟨pc, slot⟩, hpc, rfl⟩ := Option.map_eq_some_iff.mp h
    have hcount := GetData.Pc.step_count hpc
    refine hs.of_count ?_ ?_ rfl
    · intro src
      simp only [hcount]
      split_ifs
      · by_cases hsrc : src = .server
        · subst hsrc
          simp only [incr, Function.update_self, Option.getD_some, hs.count]
        · simp only [incr, Function.update_of_ne hsrc, hs.count]
      · exact hs.count src
    · dsimp only
      split_ifs
      · rw [incr, Function.update_of_ne (by decide)]
      · rfl

/-- In a run whose generator steps initialise a counter only while it is absent, the counter of a
visible index records every increment, and the client gets every piece number once. -/
theorem no_lost_increment {s t : State ι} (hinit : Initial s)
    (hrun : Reachable (State.step cfg dir req) FreshCount s t) : NoLostIncrement t := by
  have hinv : Invariant t := hrun.invariant hinit.invariant
    fun _ _ _ hs hfresh h ↦ invariant_step cfg dir req hs hfresh h
  exact ⟨fun source _ ↦ hinv.count source, hinv.handed⟩

def State.start : State (Fin 0) :=
  ⟨Slot.empty, fun _ ↦ .createTime, .serverTime, nofun, fun _ ↦ 0, []⟩

theorem State.start_initial : Initial State.start :=
  ⟨fun _ ↦ rfl, fun _ ↦ rfl, rfl, fun _ ↦ rfl, rfl⟩

def generate (source : Source) : Act (Fin 0) := .generator source ⟨some [1], some [2], 1700000000⟩

def poll : Act (Fin 0) := .client

abbrev startStep := State.step Config.release (fun _ ↦ true)
  (nofun : Fin 0 → GetData.Request Config.release)

theorem no_lost_increment_published :
    ∃ t : State (Fin 0), NoLostIncrement t ∧ t.handed = [0, 1] := by
  have hrun : Reachable startStep FreshCount State.start State.start := .start
  have hrun := hrun.next (a := generate .server) (fun _ ↦ rfl) rfl
  have hrun := hrun.next (a := generate .server) (fun _ ↦ rfl) rfl
  have hrun := hrun.next (a := generate .server) (fun _ ↦ rfl) rfl
  have hrun := hrun.next (a := generate .server) (fun _ ↦ rfl) rfl
  have hrun := hrun.next (a := generate .server) (fun _ ↦ rfl) rfl
  have hrun := hrun.next (a := generate .client) (fun _ ↦ rfl) rfl
  have hrun := hrun.next (a := generate .client) (fun _ ↦ rfl) rfl
  have hrun := hrun.next (a := generate .client) (fun _ ↦ rfl) rfl
  have hrun := hrun.next (a := generate .client) (fun _ ↦ rfl) rfl
  have hrun := hrun.next (a := poll) trivial rfl
  have hrun := hrun.next (a := poll) trivial rfl
  have hrun := hrun.next (a := poll) trivial rfl
  have hrun := hrun.next (a := poll) trivial rfl
  have hrun := hrun.next (a := poll) trivial rfl
  exact ⟨_, no_lost_increment _ _ _ State.start_initial hrun, rfl⟩

/-- The client sees both creation times and takes a piece before its own counter is initialised:
the increment is lost, and the piece is handed out again. -/
theorem increment_lost :
    ∃ t, Reachable startStep (fun _ _ ↦ True) State.start t ∧ Initial State.start ∧
      t.handed = [0, 0] ∧ ¬NoLostIncrement t := by
  have hrun : ∃ t, exec startStep State.start [generate .server, generate .server, generate .server,
      generate .server, generate .server, generate .client, generate .client, generate .client,
      poll, poll, poll, poll, generate .client, poll] = some t ∧ t.handed = [0, 0] :=
    ⟨_, rfl, rfl⟩
  obtain ⟨t, ht, hhanded⟩ := hrun
  refine ⟨t, .of_exec ht, State.start_initial, hhanded, ?_⟩
  intro h
  exact absurd (hhanded ▸ h.2) (by decide)

end ShannonNet.Generator.Publication
