import ShannonNet.Config
import ShannonNet.Store

namespace ShannonNet.Client

/-- Where `clientRun` stands with one index: the loop that polls for the two creation times, then
the loop that pulls pieces until the counter reaches `PROGRESS`. -/
inductive Pull
  | serverTime
  | clientTime (serverCreateTime : ℕ)
  | runningExists
  | pull
  | gather (progress : ℕ)
  deriving DecidableEq

/-- One Redis or file step; the last component is the piece a `zincrby` hands to a new
`Decrypt::process`. `value()` of an absent score is zero. -/
def Pull.step (cfg : Config) : Pull → Slot → Option (Pull × Slot × Option ℕ)
  | serverTime, s => some (clientTime ((s.time .server).getD 0), s, none)
  | clientTime serverCreateTime, s =>
    let clientCreateTime := (s.time .client).getD 0
    some (if serverCreateTime ≠ 0 ∧ clientCreateTime ≠ 0 then runningExists else serverTime, s,
      none)
  | runningExists, s => some (if (s.running .client).isSome then pull else serverTime, s, none)
  | pull, s =>
    let progress := (s.count .client).getD 0 + 1
    some (if progress ≥ cfg.progress then gather progress else pull,
      { s with count := Function.update s.count .client (some progress) },
      if progress ≤ cfg.progress then some (progress - 1) else none)
  | gather _, _ => none

theorem Pull.step_cases {cfg : Config} {c c' : Pull} {s s' : Slot} {piece : Option ℕ}
    (h : c.step cfg s = some (c', s', piece)) :
    (c ≠ .pull ∧ s' = s ∧ piece = none) ∨
    (c = .pull ∧
      s' = { s with
        count := Function.update s.count .client (some ((s.count .client).getD 0 + 1)) } ∧
      ∀ p, piece = some p → p = (s.count .client).getD 0) := by
  cases c with
  | pull =>
    obtain ⟨-, rfl, rfl⟩ := Option.some.inj h
    refine .inr ⟨rfl, rfl, ?_⟩
    intro p hp
    rw [← Option.some.inj (Option.ite_none_right_eq_some.mp hp).2, Nat.add_sub_cancel]
  | gather progress => exact absurd h (by simp [Pull.step])
  | serverTime =>
    obtain ⟨-, rfl, rfl⟩ := Option.some.inj h
    exact .inl ⟨by simp, rfl, rfl⟩
  | clientTime serverCreateTime =>
    obtain ⟨-, rfl, rfl⟩ := Option.some.inj h
    exact .inl ⟨by simp, rfl, rfl⟩
  | runningExists =>
    obtain ⟨-, rfl, rfl⟩ := Option.some.inj h
    exact .inl ⟨by simp, rfl, rfl⟩

end ShannonNet.Client
