import ShannonNet.Client.Decrypt
import ShannonNet.Client.Pull
import ShannonNet.Generator.Script
import ShannonNet.Server.Pool

namespace ShannonNet.Transfer

open Library.Buffer Library.Bitset Client Server

/-- Where `clientRun` stands with one index: in its loops, with the tensor of `Decrypt` once that
is constructed, or in `gather(progress)`. -/
inductive ClientRun
  | pull (loop : Pull) (secretA : Option Bytes)
  | gather (progress : ℕ) (loc : Gather)

def ClientRun.secretA : ClientRun → Option Bytes
  | pull _ secretA => secretA
  | gather _ _ => none

/-- Server, generators and client of one index. A piece has one request and one `process`. -/
structure State (cfg : Config) where
  pool : Pool (Fin cfg.progress)
  generator : Source → Generator.Pc
  client : ClientRun
  process : Fin cfg.progress → Process

inductive Act (cfg : Config)
  | generator (source : Source) (o : Generator.Outcome)
  | request (p : Fin cfg.progress)
  | process (p : Fin cfg.progress)
  | client

/-- The checksum function, `CLIENT_NODE`, and the coins of the encryptions. -/
structure Env (cfg : Config) where
  crc32c : Bytes → UInt32
  clientNode : ℕ
  clientNode_pos : 0 < clientNode
  coins : Index → Fin cfg.progress → ℕ → Coins cfg

namespace Env

variable {cfg : Config} (env : Env cfg) (index : Index)

def dir (nodeId : ℕ) : Bool := nodeId == env.clientNode

def request (p : Fin cfg.progress) : GetData.Request cfg :=
  ⟨env.clientNode, p, env.coins index p, env.clientNode_pos⟩

theorem dir_clientNode : env.dir env.clientNode = true := beq_self_eq_true _

end Env

namespace State

variable {cfg : Config} (env : Env cfg) (index : Index)

def slot (s : State cfg) : Slot := s.pool.slot

def withSlot (s : State cfg) (slot : Slot) : State cfg :=
  { s with pool := { s.pool with slot := slot } }

/-- A `Decrypt::process` for a piece that `zincrby` has handed out for the first time. -/
def handOut (s : State cfg) : Option ℕ → Option (State cfg)
  | none => some s
  | some num =>
    if h : num < cfg.progress then
      match s.process ⟨num, h⟩ with
      | .idle => some { s with process := Function.update s.process ⟨num, h⟩ .start }
      | _ => none
    else none

theorem handOut_some {s t : State cfg} {num : ℕ} (h : s.handOut (some num) = some t) :
    ∃ p : Fin cfg.progress, p = num ∧ s.process p = .idle ∧
      t = { s with process := Function.update s.process p .start } := by
  rw [handOut] at h
  split_ifs at h with hnum
  cases hp : s.process ⟨num, hnum⟩ with
  | idle =>
    rw [hp] at h
    cases h
    exact ⟨_, rfl, hp, rfl⟩
  | _ =>
    rw [hp] at h
    cases h

theorem handOut_pool {s t : State cfg} {piece : Option ℕ} (h : s.handOut piece = some t) :
    t.pool = s.pool := by
  cases piece with
  | none =>
    cases h
    rfl
  | some num =>
    obtain ⟨p, -, -, rfl⟩ := handOut_some h
    rfl

/-- A step of `clientRun`. The pulling loop goes on without waiting for the futures of a round of
`CLIENT_THREAD_NUM` pieces, which allows more interleavings than the code. -/
def stepClient (s : State cfg) : Option (State cfg) :=
  match s.client with
  | .pull .pull none =>
    (s.slot.running .client).map fun running ↦ { s with client := .pull .pull (some running) }
  | .pull (.gather progress) _ =>
    if ∀ p, (s.process p).over = true then
      some { s with client := .gather progress (.readPiece 0 (zeros cfg.secretASize)) }
    else none
  | .pull loop secretA =>
    (loop.step cfg s.slot).bind fun (loop, slot, piece) ↦
      handOut { s.withSlot slot with client := .pull loop secretA } piece
  | .gather progress loc =>
    (loc.step cfg env.crc32c env.dir env.clientNode progress s.slot).map fun (loc, slot) ↦
      { s.withSlot slot with client := .gather progress loc }

inductive ClientStep (env : Env cfg) (s : State cfg) : State cfg → Prop
  | construct {running : Bytes} (hc : s.client = .pull .pull none)
    (hrunning : s.slot.running .client = some running) :
    ClientStep env s { s with client := .pull .pull (some running) }
  | finish {progress : ℕ} {secretA : Option Bytes}
    (hc : s.client = .pull (.gather progress) secretA)
    (hover : ∀ p, (s.process p).over = true) :
    ClientStep env s { s with client := .gather progress (.readPiece 0 (zeros cfg.secretASize)) }
  | pull {loop loop' : Pull} {secretA : Option Bytes} {slot : Slot} {piece : Option ℕ}
    {t : State cfg}
    (hc : s.client = .pull loop secretA) (hloop : loop = .pull → secretA ≠ none)
    (hstep : loop.step cfg s.slot = some (loop', slot, piece))
    (ht : handOut { s.withSlot slot with client := .pull loop' secretA } piece = some t) :
    ClientStep env s t
  | gather {progress : ℕ} {loc loc' : Gather} {slot : Slot} (hc : s.client = .gather progress loc)
    (hstep : loc.step cfg env.crc32c env.dir env.clientNode progress s.slot = some (loc', slot)) :
    ClientStep env s { s.withSlot slot with client := .gather progress loc' }

theorem stepClient_cases {s t : State cfg} (h : s.stepClient env = some t) :
    ClientStep env s t := by
  rw [stepClient] at h
  cases hc : s.client with
  | pull loop secretA =>
    rw [hc] at h
    cases loop with
    | pull =>
      cases secretA with
      | none =>
        obtain ⟨running, hrunning, rfl⟩ := Option.map_eq_some_iff.mp h
        exact .construct hc hrunning
      | some running =>
        obtain ⟨⟨loop', slot, piece⟩, hstep, ht⟩ := Option.bind_eq_some_iff.mp h
        exact .pull hc (fun _ ↦ by simp) hstep ht
    | gather progress =>
      dsimp only at h
      split_ifs at h with hover
      cases h
      exact .finish hc hover
    | _ =>
      obtain ⟨⟨loop', slot, piece⟩, hstep, ht⟩ := Option.bind_eq_some_iff.mp h
      exact .pull hc (fun h ↦ by cases h) hstep ht
  | gather progress loc =>
    rw [hc] at h
    obtain ⟨⟨loc', slot⟩, hstep, rfl⟩ := Option.map_eq_some_iff.mp h
    exact .gather hc hstep

def step (s : State cfg) : Act cfg → Option (State cfg)
  | .generator source o =>
    if s.generator source = .done then none
    else
      let r := (s.generator source).step source o s.slot
      some { s.withSlot r.2 with generator := Function.update s.generator source r.1 }
  | .request p =>
    match s.process p with
    | .sent => (s.pool.step env.dir (env.request index) p).map fun pool ↦ { s with pool := pool }
    | _ => none
  | .process p =>
    ((s.process p).step cfg s.client.secretA p (s.pool.request p) s.slot).map fun (process, slot) ↦
      { s.withSlot slot with process := Function.update s.process p process }
  | .client => s.stepClient env

end State
end ShannonNet.Transfer
