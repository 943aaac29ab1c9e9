import ShannonNet.Store

namespace ShannonNet.Generator

open Library.Bitset

/-- Where one iteration of `generateSecretFileScript` stands after `rpop`. -/
inductive Pc
  | createTime
  | saveRunning
  | saveWaiting
  | zaddTime
  | zaddCount
  | del
  | done
  deriving DecidableEq

/-- What one step finds outside the two stores: the running key its stages produce, `none` when
the iteration gives up before it is saved, the waiting secret, `none` when its file does not open,
and the clock. -/
structure Outcome where
  running : Option Bytes
  waiting : Option Bytes
  timeStamp : ℕ

def Pc.step (source : Source) (o : Outcome) : Pc → Slot → Pc × Slot
  | createTime, s => if (s.time source).isSome then (done, s) else (saveRunning, s)
  | saveRunning, s =>
    match o.running with
    | none => (done, s)
    | some key =>
      (if source = .server then saveWaiting else zaddTime,
        { s with running := Function.update s.running source (some key) })
  | saveWaiting, s => (zaddTime, { s with waiting := o.waiting.orElse fun _ ↦ s.waiting })
  | zaddTime, s =>
    -- `zadd` returns the number of members it added.
    (if (s.time source).isSome then done else zaddCount,
      { s with time := Function.update s.time source (some o.timeStamp) })
  | zaddCount, s =>
    (if source = .server then del else done,
      { s with count := Function.update s.count source (some 0) })
  | del, s => (done, { s with lock := none })
  | done, s => (done, s)

abbrev Process := Option (Message × Pc)

def Process.step (o : Outcome) (p : Process) (w : World) : Process × World :=
  match p with
  | none =>
    match w.queue.getLast? with
    | none => (none, w)
    | some msg => (some (msg, .createTime), { w with queue := w.queue.dropLast })
  | some (_, .done) => (none, w)
  | some (msg, pc) =>
    let r := pc.step msg.source o (w.slot msg.index)
    (some (msg, r.1), w.setSlot msg.index r.2)

/-- A process that is idle, takes a message, or goes on with its iteration. -/
theorem Process.step_cases (o : Outcome) (p : Process) (w : World) :
    p.step o w = (none, w) ∨
      (∃ msg, p.step o w = (some (msg, .createTime), { w with queue := w.queue.dropLast })) ∨
      ∃ msg pc, p = some (msg, pc) ∧
        p.step o w = (some (msg, (pc.step msg.source o (w.slot msg.index)).1),
          w.setSlot msg.index (pc.step msg.source o (w.slot msg.index)).2) := by
  rcases p with _ | ⟨msg, pc⟩
  · cases hq : w.queue.getLast? with
    | none => exact .inl (by simp only [Process.step, hq])
    | some msg => exact .inr (.inl ⟨msg, by simp only [Process.step, hq]⟩)
  · cases pc with
    | done => exact .inl rfl
    | _ => exact .inr (.inr ⟨msg, _, rfl, rfl⟩)

/-- What a step writes under the index of its message. -/
theorem Pc.step_slot (source : Source) (o : Outcome) (pc : Pc) (s : Slot) :
    (∃ running, (pc.step source o s).2 = { s with running := running }) ∨
      pc = .saveWaiting ∧
        (pc.step source o s).2 = { s with waiting := o.waiting.orElse fun _ ↦ s.waiting } ∨
      (pc.step source o s).2 =
        { s with time := Function.update s.time source (some o.timeStamp) } ∨
      pc = .zaddCount ∧
        (pc.step source o s).2 = { s with count := Function.update s.count source (some 0) } ∨
      pc = .del ∧ (pc.step source o s).2 = { s with lock := none } := by
  cases pc with
  | createTime =>
    left
    simp only [Pc.step]
    split_ifs <;> exact ⟨_, rfl⟩
  | saveRunning =>
    left
    simp only [Pc.step]
    split <;> exact ⟨_, rfl⟩
  | saveWaiting => exact .inr (.inl ⟨rfl, rfl⟩)
  | zaddTime => exact .inr (.inr (.inl rfl))
  | zaddCount => exact .inr (.inr (.inr (.inl ⟨rfl, rfl⟩)))
  | del => exact .inr (.inr (.inr (.inr ⟨rfl, rfl⟩)))
  | done => exact .inl ⟨_, rfl⟩

section Frame

variable {source src : Source} {o : Outcome} {pc : Pc} {s : Slot}

theorem Pc.step_time (h : (s.time src).isSome) : ((pc.step source o s).2.time src).isSome := by
  rcases Pc.step_slot source o pc s with ⟨_, ht⟩ | ⟨-, ht⟩ | ht | ⟨-, ht⟩ | ⟨-, ht⟩
  · rwa [ht]
  · rwa [ht]
  · rw [ht]
    by_cases hs : src = source
    · simp [hs]
    · simpa [hs] using h
  · rwa [ht]
  · rwa [ht]

theorem Pc.step_lock (h : pc ≠ .del) : (pc.step source o s).2.lock = s.lock := by
  rcases Pc.step_slot source o pc s with ⟨_, ht⟩ | ⟨-, ht⟩ | ht | ⟨-, ht⟩ | ⟨hpc, -⟩
  · rw [ht]
  · rw [ht]
  · rw [ht]
  · rw [ht]
  · exact absurd hpc h

theorem Pc.step_count (h : pc ≠ .zaddCount) : (pc.step source o s).2.count = s.count := by
  rcases Pc.step_slot source o pc s with ⟨_, ht⟩ | ⟨-, ht⟩ | ht | ⟨hpc, -⟩ | ⟨-, ht⟩
  · rw [ht]
  · rw [ht]
  · rw [ht]
  · exact absurd hpc h
  · rw [ht]

end Frame

def Pc.Published (source : Source) (s : Slot) : Pc → Prop
  | zaddCount => (s.time source).isSome
  | del => (s.time source).isSome ∧ source = .server
  | _ => True

theorem Pc.step_published {source : Source} {o : Outcome} {pc : Pc} {s : Slot}
    (h : pc.Published source s) :
    (pc.step source o s).1.Published source (pc.step source o s).2 := by
  cases pc with
  | createTime =>
    simp only [Pc.step]
    split_ifs <;> trivial
  | saveRunning =>
    simp only [Pc.step]
    split
    · trivial
    · dsimp only
      split_ifs <;> trivial
  | zaddTime =>
    simp only [Pc.step]
    split_ifs
    · trivial
    · simp [Pc.Published]
  | zaddCount =>
    simp only [Pc.step]
    split_ifs with hs
    · exact ⟨h, hs⟩
    · trivial
  | saveWaiting => trivial
  | del => trivial
  | done => trivial

theorem Pc.Published.mono {source : Source} {pc : Pc} {s t : Slot} (h : pc.Published source s)
    (ht : (s.time source).isSome → (t.time source).isSome) : pc.Published source t := by
  cases pc with
  | zaddCount => exact ht h
  | del => exact ⟨ht h.1, h.2⟩
  | createTime => trivial
  | saveRunning => trivial
  | saveWaiting => trivial
  | zaddTime => trivial
  | done => trivial

end ShannonNet.Generator
