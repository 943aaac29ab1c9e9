import ShannonNet.Server.Exchange
import ShannonNet.Transfer.Validity

namespace ShannonNet.Transfer.Deployment

open Library.Runs Library.Bitset Client Server GenSecret Exchange

variable {cfg : Config} {ι γ : Type}

/-- What the client and its requests keep of one turn of `clientRun`, apart from the stores. -/
structure Party (cfg : Config) where
  request : Fin cfg.progress → GetData.Pc
  counted : List (Fin cfg.progress)
  entered : List (Fin cfg.progress)
  client : ClientRun
  process : Fin cfg.progress → Process

namespace Party

def start (cfg : Config) : Party cfg where
  request _ := .createTime
  counted := []
  entered := []
  client := .pull .serverTime none
  process _ := .idle

def on (q : Party cfg) (generator : Source → Generator.Pc) (slot : Slot) : Transfer.State cfg :=
  ⟨⟨slot, q.request, q.counted, q.entered⟩, generator, q.client, q.process⟩

def of (s : Transfer.State cfg) : Party cfg :=
  ⟨s.pool.request, s.pool.counted, s.pool.entered, s.client, s.process⟩

end Party

/-- The exchange of messages, which clients have got their own one into the queue, and where each
turn stands. -/
structure State (cfg : Config) (ι γ : Type) where
  exchange : Exchange.State ι γ
  joined : ι → Bool
  party : ι → Party cfg

inductive Act (cfg : Config) (ι γ : Type)
  | request (i : ι) (d : Draw)
  | push (i : ι) (ok : Bool)
  | generator (g : γ) (o : Generator.Outcome)
  | transfer (i : ι) (a : Transfer.Act cfg)

namespace State

def world (s : State cfg ι γ) : World := s.exchange.base.world

def dto (s : State cfg ι γ) (i : ι) : Option Dto := Exchange.dto (s.exchange.base.request i)

def setSlot (s : State cfg ι γ) (index : Index) (slot : Slot) : State cfg ι γ :=
  { s with exchange := { s.exchange with
      base := { s.exchange.base with world := s.world.setSlot index slot } } }

variable [DecidableEq ι] [DecidableEq γ] (env : Env cfg)

/-- The generators work for whoever is in the queue: a client moves the rest of its transfer, on
the index it was answered. -/
def step (s : State cfg ι γ) : Act cfg ι γ → Option (State cfg ι γ)
  | .request i d =>
    (s.exchange.step (fun _ ↦ env.clientNode) (.request i d)).map fun e ↦
      { s with exchange := e }
  | .push i ok =>
    (s.exchange.step (fun _ ↦ env.clientNode) (.client i ok)).map fun e ↦
      { s with exchange := e, joined := Function.update s.joined i ok }
  | .generator g o =>
    (s.exchange.step (fun _ ↦ env.clientNode) (.generator g o)).map fun e ↦
      { s with exchange := e }
  | .transfer i a =>
    match s.dto i with
    | none => none
    | some d =>
      if s.joined i then
        (((s.party i).on (fun _ ↦ .done) (s.world.slot d.index)).step env d.index a).map fun t ↦
          { s.setSlot d.index t.slot with party := Function.update s.party i (.of t) }
      else none

end State

section Frame

variable {env : Env cfg} {index : Index} {s t : Transfer.State cfg}

def withGenerator (s : Transfer.State cfg) (generator : Source → Generator.Pc) :
    Transfer.State cfg := { s with generator := generator }

variable {generator : Source → Generator.Pc}

theorem handOut_withGenerator (piece : Option ℕ) :
    (withGenerator s generator).handOut piece =
      (s.handOut piece).map (withGenerator · generator) := by
  cases piece with
  | none => rfl
  | some num =>
    have hprocess : (withGenerator s generator).process = s.process := rfl
    rw [Transfer.State.handOut, Transfer.State.handOut, hprocess]
    split_ifs with hnum
    · cases s.process ⟨num, hnum⟩ <;> rfl
    · rfl

theorem stepClient_withGenerator :
    (withGenerator s generator).stepClient env =
      (s.stepClient env).map (withGenerator · generator) := by
  have hclient : (withGenerator s generator).client = s.client := rfl
  have hprocess : (withGenerator s generator).process = s.process := rfl
  have hslot : (withGenerator s generator).slot = s.slot := rfl
  have hpull (loop : Pull) (secretA : Option Bytes) :
      ((loop.step cfg s.slot).bind fun r ↦ Transfer.State.handOut
        { (withGenerator s generator).withSlot r.2.1 with client := .pull r.1 secretA } r.2.2) =
      ((loop.step cfg s.slot).bind fun r ↦ Transfer.State.handOut
        { s.withSlot r.2.1 with client := .pull r.1 secretA } r.2.2).map
          (withGenerator · generator) := by
    rw [Option.map_bind]
    exact Option.bind_congr fun r _ ↦ handOut_withGenerator
      (s := { s.withSlot r.2.1 with client := .pull r.1 secretA }) r.2.2
  rw [Transfer.State.stepClient, Transfer.State.stepClient, hclient, hslot, hprocess]
  cases s.client with
  | pull loop secretA =>
    cases loop with
    | pull =>
      cases secretA with
      | none => cases s.slot.running .client <;> rfl
      | some running => exact hpull .pull (some running)
    | gather progress =>
      dsimp only
      split_ifs <;> rfl
    | _ => exact hpull _ secretA
  | gather progress loc =>
    dsimp only
    rw [Option.map_map]
    rfl

/-- No step of a client or a request looks at a generator. -/
theorem step_withGenerator {a : Transfer.Act cfg} (ha : IsTransfer a) :
    (withGenerator s generator).step env index a =
      (s.step env index a).map (withGenerator · generator) := by
  cases a with
  | generator source o => exact ha.elim
  | request p =>
    have hprocess : (withGenerator s generator).process = s.process := rfl
    rw [Transfer.State.step, Transfer.State.step, hprocess]
    cases s.process p with
    | sent =>
      rw [Option.map_map]
      rfl
    | _ => rfl
  | process p =>
    rw [Transfer.State.step, Transfer.State.step, Option.map_map]
    rfl
  | client => exact stepClient_withGenerator

theorem generator_of_step {a : Transfer.Act cfg} (ha : IsTransfer a)
    (h : s.step env index a = some t) : t.generator = s.generator := by
  have hsame : (withGenerator s s.generator).step env index a =
      (s.step env index a).map (withGenerator · s.generator) := step_withGenerator ha
  rw [h, Option.map_some] at hsame
  have hself : t = withGenerator t s.generator := Option.some.inj (h.symm.trans hsame)
  rw [hself]
  rfl

/-- The key and the score by which an index counts as taken. -/
structure Keeps (slot slot' : Slot) : Prop where
  lock : slot'.lock = slot.lock
  time : slot'.time = slot.time

theorem Keeps.refl (slot : Slot) : Keeps slot slot := ⟨rfl, rfl⟩

theorem keeps_getData {dir : ℕ → Bool} {r : GetData.Request cfg} {pc pc' : GetData.Pc}
    {slot slot' : Slot} (h : pc.step dir r slot = some (pc', slot')) : Keeps slot slot' := by
  refine ⟨?_, (GetData.Pc.step_preserved h).time⟩
  cases pc with
  | fromFile => rw [(GetData.Pc.fromFile_cases h).1]
  | read running content => rw [(GetData.Pc.read_cases h).1]
  | moveOpen data moveBufferVec =>
    cases h
    split_ifs <;> rfl
  | done res => cases h
  | _ =>
    cases h
    rfl

theorem keeps_resultReport {nodeId isValid : ℕ} {pc pc' : ResultReport.Pc} {slot slot' : Slot}
    (h : pc.step nodeId isValid slot = some (pc', slot')) : Keeps slot slot' := by
  cases pc with
  | zadd =>
    simp only [ResultReport.Pc.step] at h
    split_ifs at h
    · cases h
      exact ⟨rfl, rfl⟩
    · cases h
      exact ⟨rfl, rfl⟩
  | done res => cases h
  | _ =>
    cases h
    exact ⟨rfl, rfl⟩

theorem keeps_gather {crc32c : Bytes → UInt32} {dir : ℕ → Bool} {nodeId progress : ℕ}
    {loc loc' : Gather} {slot slot' : Slot}
    (h : loc.step cfg crc32c dir nodeId progress slot = some (loc', slot')) :
    Keeps slot slot' := by
  cases loc with
  | readPiece num bufferVec =>
    simp only [Gather.step] at h
    split_ifs at h
    · cases h
      exact .refl slot
    · cases h
      exact .refl slot
  | report bufferVec isValid pc =>
    cases pc with
    | done res =>
      cases h
      exact .refl slot
    | _ =>
      simp only [Gather.step, Option.map_eq_some_iff] at h
      obtain ⟨r, hr, h⟩ := h
      cases h
      exact keeps_resultReport hr
  | openSecret bufferVec =>
    cases h
    split_ifs
    · exact ⟨rfl, rfl⟩
    · exact .refl slot
  | done => cases h
  | _ =>
    cases h
    exact ⟨rfl, rfl⟩

theorem keeps_of_step {a : Transfer.Act cfg} (ha : IsTransfer a)
    (h : s.step env index a = some t) : Keeps s.slot t.slot := by
  cases a with
  | generator source o => exact ha.elim
  | request p =>
    cases hp : s.process p with
    | sent =>
      rw [Transfer.State.step, hp] at h
      obtain ⟨pool, hpool, rfl⟩ := Option.map_eq_some_iff.mp h
      obtain ⟨pc, slot, hpc, rfl⟩ := Pool.step_cases _ _ hpool
      exact keeps_getData hpc
    | _ =>
      rw [Transfer.State.step, hp] at h
      cases h
  | process p =>
    obtain ⟨⟨pr, slot⟩, hstep, rfl⟩ := Option.map_eq_some_iff.mp h
    obtain ⟨file, rfl⟩ := Process.step_slot hstep
    exact ⟨rfl, rfl⟩
  | client =>
    cases Transfer.State.stepClient_cases env h with
    | construct => exact .refl _
    | finish => exact .refl _
    | pull hc hloop hstep ht =>
      change Keeps s.slot t.pool.slot
      rw [Transfer.State.handOut_pool ht]
      rcases Pull.step_cases hstep with ⟨-, rfl, -⟩ | ⟨-, rfl, -⟩
      · exact .refl _
      · exact ⟨rfl, rfl⟩
    | gather hc hstep => exact keeps_gather hstep

end Frame

/-- The draws find the candidate still free, and a generator finds and leaves what `Regular` asks
for under the index of its message. -/
def Steady [DecidableEq ι] [DecidableEq γ] (env : Env cfg) (s : State cfg ι γ) :
    Act cfg ι γ → Prop
  | .request i d => Exchange.Fresh (fun _ ↦ env.clientNode) s.exchange (.request i d)
  | .generator g o => ∀ msg pc, s.exchange.base.generator g = some (msg, pc) →
    Regular env ((Party.start cfg).on (fun _ ↦ pc) (s.world.slot msg.index))
      (.generator msg.source o)
  | _ => True

/-- Where the one generator stands that works for a side of an index: `createTime` as long as its
message has not been taken, and `done` when nobody holds it any more. -/
inductive At (generator : γ → Generator.Process) (popped : List Message) (k : Source × Index) :
    Generator.Pc → Prop
  | held {g : γ} {msg : Message} {pc : Generator.Pc} (hg : generator g = some (msg, pc))
    (hkey : key msg = k) : At generator popped k pc
  | ended (hnone : ∀ g msg pc, generator g = some (msg, pc) → key msg ≠ k)
    (hpopped : k ∈ popped.map key) : At generator popped k .done
  | waiting (hpopped : k ∉ popped.map key) : At generator popped k .createTime

/-- What the deployment shows of the transfer of an index that client `i` was answered. -/
structure Shows (s : State cfg ι γ) (i : ι) (index : Index) (T : Transfer.State cfg) : Prop where
  slot : T.slot = s.world.slot index
  party : Party.of T = s.party i
  generator : ∀ source, At s.exchange.base.generator s.exchange.popped (source, index)
    (T.generator source)

/-- The transfer of an index that has just been answered. -/
def answered (cfg : Config) (lock : Option Utils.Str) : Transfer.State cfg :=
  (State.fresh cfg).withSlot { Slot.empty with lock := lock }

def Untouched (slot : Slot) : Prop := ∃ lock, slot = { Slot.empty with lock := lock }

structure Initial (s : State cfg ι γ) : Prop where
  exchange : Exchange.Initial s.exchange
  joined : ∀ i, s.joined i = false
  party : ∀ i, s.party i = .start cfg
  slot : ∀ x, ((s.world.slot x).time .server).isSome ∨ Untouched (s.world.slot x)

structure Sim (env : Env cfg) (s : State cfg ι γ) : Prop where
  inv : Exchange.Inv (fun _ ↦ env.clientNode) s.exchange
  joined : ∀ i, s.joined i = true → ∃ d, s.dto i = some d ∧
    clientMessage env.clientNode d ∈ s.exchange.pushed
  party : ∀ i, s.dto i = none → s.party i = .start cfg
  untouched : ∀ x, (∀ i d, s.dto i = some d → d.index ≠ x) →
    ((s.world.slot x).time .server).isSome ∨ Untouched (s.world.slot x)
  pushing : ∀ i x, s.exchange.base.request i = .push x → Untouched (s.world.slot x)
  run : ∀ i d, s.dto i = some d → ∃ lock T,
    Reachable (Transfer.State.step env d.index) (Regular env) (answered cfg lock) T ∧
      Shows s i d.index T

section Sim

variable {env : Env cfg} {s t : State cfg ι γ} {i : ι} {d : Dto}

theorem regular_congr {T U : Transfer.State cfg} {source : Source} {o : Generator.Outcome}
    (hslot : T.slot = U.slot) (hpc : T.generator source = U.generator source)
    (h : Regular env U (.generator source o)) : Regular env T (.generator source o) := by
  rw [Regular] at h ⊢
  rw [hpc, hslot]
  exact h

theorem regular_of_isTransfer {T : Transfer.State cfg} {a : Transfer.Act cfg}
    (ha : IsTransfer a) : Regular env T a := by
  cases a with
  | generator source o => exact ha.elim
  | _ => trivial

theorem Initial.sim (h : Initial s) : Sim env s where
  inv := h.exchange.inv
  joined i hi := by
    rw [h.joined] at hi
    cases hi
  party i _ := h.party i
  untouched x _ := h.slot x
  pushing i x hi := by
    rw [h.exchange.base.request] at hi
    cases hi
  run i d hd := by
    rw [State.dto, h.exchange.base.request] at hd
    cases hd

/-- Two clients are never answered one index. -/
theorem Sim.dto_unique (h : Sim env s) {j : ι} {d' : Dto} (hd : s.dto i = some d)
    (hd' : s.dto j = some d') (hindex : d.index = d'.index) : i = j :=
  h.inv.base.unique i j d.index (holds_of_dto hd) (hindex ▸ holds_of_dto hd')

/-- What was pushed belongs to an index that was answered. -/
theorem Sim.exists_dto (h : Sim env s) {msg : Message} (hmsg : msg ∈ s.exchange.pushed) :
    ∃ i d, s.dto i = some d ∧ d.index = msg.index := by
  obtain ⟨i, d, hd, rfl | ⟨rfl, -⟩⟩ := h.inv.sent msg hmsg
  · exact ⟨i, d, hd, rfl⟩
  · exact ⟨i, d, hd, rfl⟩

theorem Sim.mem_pushed (h : Sim env s) {msg : Message} (hmsg : msg ∈ s.exchange.popped) :
    msg ∈ s.exchange.pushed := by
  rw [h.inv.queue]
  exact List.mem_append_left _ hmsg

section At

variable [DecidableEq γ] {generator : γ → Generator.Process} {popped popped' : List Message}
  {k : Source × Index} {pc pc' : Generator.Pc} {g : γ} {msg : Message}

/-- A generator that has nothing to do with a message, before or after. -/
theorem At.update (h : At generator popped k pc) {p : Generator.Process}
    (hold : ∀ msg pc, generator g = some (msg, pc) → key msg ≠ k)
    (hnew : ∀ msg pc, p = some (msg, pc) → key msg ≠ k)
    (hpopped : k ∈ popped'.map key ↔ k ∈ popped.map key) :
    At (Function.update generator g p) popped' k pc := by
  cases h with
  | @held g' msg' pc hg' hkey =>
    have hne : g' ≠ g := by
      rintro rfl
      exact hold msg' pc hg' hkey
    exact .held (by rwa [Function.update_of_ne hne]) hkey
  | ended hnone hmem =>
    refine .ended ?_ (hpopped.mpr hmem)
    intro g' msg' pc' hg'
    by_cases hgg : g' = g
    · subst hgg
      rw [Function.update_self] at hg'
      exact hnew msg' pc' hg'
    · rw [Function.update_of_ne hgg] at hg'
      exact hnone g' msg' pc' hg'
  | waiting hmem => exact .waiting (hpopped.not.mpr hmem)

variable (hheld : ∀ g msg pc, generator g = some (msg, pc) → msg ∈ popped)

include hheld

theorem At.take (h : At generator popped k pc) (hg : generator g = none)
    (hmsg : key msg ∉ popped.map key) :
    At (Function.update generator g (some (msg, .createTime))) (popped ++ [msg]) k pc := by
  by_cases hkey : key msg = k
  · cases h with
    | @held g' msg' pc hg' hkey' =>
      have hmem := List.mem_map_of_mem (f := key) (hheld g' msg' pc hg')
      rw [hkey', ← hkey] at hmem
      exact absurd hmem hmsg
    | ended hnone hpopped => exact absurd (hkey ▸ hpopped) hmsg
    | waiting hpopped => exact .held (Function.update_self ..) hkey
  · refine h.update (fun msg' pc' hg' ↦ ?_) (fun msg' pc' heq ↦ ?_) ?_
    · rw [hg] at hg'
      cases hg'
    · cases heq
      exact hkey
    · simp [Ne.symm hkey]

variable (hexclusive : ∀ g g' msg msg' pc pc', generator g = some (msg, pc) →
  generator g' = some (msg', pc') → key msg = key msg' → g = g')

include hexclusive

omit [DecidableEq γ] in
theorem At.eq_of_held (h : At generator popped k pc) (hg : generator g = some (msg, pc'))
    (hkey : key msg = k) : pc = pc' := by
  cases h with
  | @held g' msg' pc hg' hkey' =>
    obtain rfl := hexclusive g g' msg msg' pc' pc hg hg' (hkey.trans hkey'.symm)
    rw [hg] at hg'
    cases hg'
    rfl
  | ended hnone hpopped => exact absurd hkey (hnone g msg pc' hg)
  | waiting hpopped =>
    exact absurd (hkey ▸ List.mem_map_of_mem (hheld g msg pc' hg)) hpopped

theorem At.release (h : At generator popped k pc) (hg : generator g = some (msg, .done)) :
    At (Function.update generator g none) popped k pc := by
  by_cases hkey : key msg = k
  · obtain rfl := h.eq_of_held hheld hexclusive hg hkey
    refine .ended ?_ (hkey ▸ List.mem_map_of_mem (hheld g msg _ hg))
    intro g' msg' pc' hg' hkey'
    by_cases hgg : g' = g
    · subst hgg
      rw [Function.update_self] at hg'
      cases hg'
    · rw [Function.update_of_ne hgg] at hg'
      exact hgg (hexclusive g' g msg' msg pc' _ hg' hg (hkey'.trans hkey.symm))
  · refine h.update (fun msg' pc' hg' ↦ ?_) (fun msg' pc' heq ↦ by cases heq) Iff.rfl
    rw [hg] at hg'
    cases hg'
    exact hkey

end At

theorem Shows.on_eq {T : Transfer.State cfg} {x : Index} (h : Shows s i x T)
    (generator : Source → Generator.Pc) :
    (s.party i).on generator (s.world.slot x) = withGenerator T generator := by
  rw [← h.slot, ← h.party]
  rfl

/-- A client moves its transfer as it would with the generators in place. -/
theorem Shows.step {T : Transfer.State cfg} {x : Index} {a : Transfer.Act cfg}
    {u : Transfer.State cfg} (h : Shows s i x T)
    (hu : ((s.party i).on (fun _ ↦ .done) (s.world.slot x)).step env x a = some u) :
    IsTransfer a ∧ ∃ U, T.step env x a = some U ∧ u = withGenerator U fun _ ↦ .done := by
  have ha : IsTransfer a := by
    cases a with
    | generator source o => cases hu
    | _ => trivial
  rw [h.on_eq, step_withGenerator ha] at hu
  obtain ⟨U, hU, rfl⟩ := Option.map_eq_some_iff.mp hu
  exact ⟨ha, U, hU, rfl⟩

theorem Shows.next [DecidableEq ι] {T U : Transfer.State cfg} {x : Index} {a : Transfer.Act cfg}
    (h : Shows s i x T) (ha : IsTransfer a) (hstep : T.step env x a = some U) :
    Shows { s.setSlot x U.slot with party := Function.update s.party i (.of U) } i x U where
  slot := by
    have hself : (s.world.setSlot x U.slot).slot x = U.slot := by
      rw [World.setSlot_slot, if_pos rfl]
    exact hself.symm
  party := (Function.update_self i (Party.of U) s.party).symm
  generator := by
    rw [generator_of_step ha hstep]
    exact h.generator

/-- The exchange goes by two things a slot holds. -/
theorem inv_setSlot {node : ι → ℕ} {e : Exchange.State ι γ} {x : Index} {slot : Slot}
    (h : Exchange.Inv node e) (hkeeps : Keeps (e.base.world.slot x) slot) :
    Exchange.Inv node { e with base := { e.base with world := e.base.world.setSlot x slot } } where
  base :=
    { taken := fun i y hi ↦ taken_setSlot (h.base.taken i y hi) fun _ htaken ↦ by
        rwa [hkeeps.lock, hkeeps.time]
      published := fun g msg pc hg ↦ (h.base.published g msg pc hg).mono fun hsome ↦ by
        dsimp only
        rw [World.setSlot_slot]
        split_ifs with hx
        · rw [hkeeps.time, ← hx]
          exact hsome
        · exact hsome
      unique := h.base.unique }
  queue := h.queue
  sent := fun msg hmsg ↦ (h.sent msg hmsg).mono (fun _ _ hd ↦ hd) fun _ ha ↦ ha
  answer := h.answer
  nodup := h.nodup
  held := h.held
  exclusive := h.exclusive

/-- A request that is about to push has an index of its own. -/
theorem Sim.ne_of_push (h : Sim env s) {j : ι} {x : Index}
    (hj : s.exchange.base.request j = .push x) (hd : s.dto i = some d) : x ≠ d.index := by
  rintro rfl
  obtain rfl : i = j := h.inv.base.unique i j d.index (holds_of_dto hd) (by rw [hj]; rfl)
  rw [State.dto, hj] at hd
  cases hd

theorem Sim.transfer [DecidableEq ι] (h : Sim env s) {lock : Option Utils.Str}
    {T U : Transfer.State cfg} {a : Transfer.Act cfg} (hd : s.dto i = some d)
    (hT : Reachable (Transfer.State.step env d.index) (Regular env) (answered cfg lock) T)
    (hshows : Shows s i d.index T) (ha : IsTransfer a) (hstep : T.step env d.index a = some U) :
    Sim env { s.setSlot d.index U.slot with party := Function.update s.party i (.of U) } := by
  have hkeeps : Keeps (s.world.slot d.index) U.slot := by
    rw [← hshows.slot]
    exact keeps_of_step ha hstep
  have hother {x : Index} (hx : x ≠ d.index) :
      (s.world.setSlot d.index U.slot).slot x = s.world.slot x := by
    rw [World.setSlot_slot, if_neg hx]
  refine ⟨inv_setSlot h.inv hkeeps, h.joined, ?_, ?_, ?_, ?_⟩
  · intro j hj
    have hne : j ≠ i := by
      rintro rfl
      rw [show s.dto j = none from hj] at hd
      cases hd
    exact (Function.update_of_ne hne ..).trans (h.party j hj)
  · intro x hx
    have huntouched := h.untouched x hx
    rwa [← hother fun heq ↦ hx i d hd heq.symm] at huntouched
  · intro j x hj
    have huntouched := h.pushing j x hj
    rwa [← hother (h.ne_of_push hj hd)] at huntouched
  · intro j d' hd'
    by_cases hji : j = i
    · subst hji
      obtain rfl : d' = d := Option.some.inj ((show s.dto j = some d' from hd').symm.trans hd)
      exact ⟨lock, U, hT.next (regular_of_isTransfer ha) hstep, hshows.next ha hstep⟩
    · obtain ⟨lock', V, hV, hshows'⟩ := h.run j d' hd'
      have hindex : d'.index ≠ d.index := fun heq ↦ hji (h.dto_unique hd' hd heq)
      refine ⟨lock', V, hV, ?_, ?_, hshows'.generator⟩
      · exact hshows'.slot.trans (hother hindex).symm
      · exact hshows'.party.trans (Function.update_of_ne hji ..).symm

section Generator

variable [DecidableEq γ] {g : γ} {o : Generator.Outcome} {msg : Message} {pc : Generator.Pc}

theorem step_active {w : World} (hpc : pc ≠ .done) :
    Generator.Process.step o (some (msg, pc)) w =
      (some (msg, (pc.step msg.source o (w.slot msg.index)).1),
        w.setSlot msg.index (pc.step msg.source o (w.slot msg.index)).2) := by
  cases pc <;> first | rfl | exact absurd rfl hpc

omit [DecidableEq γ] in
theorem Sim.key_not_mem_popped (h : Sim env s) (hmsg : s.world.queue.getLast? = some msg) :
    key msg ∉ s.exchange.popped.map key := by
  have hnodup := h.inv.nodup
  rw [h.inv.queue, List.map_append, List.nodup_append] at hnodup
  have hmem : msg ∈ s.exchange.base.world.queue.reverse :=
    List.mem_reverse.mpr (List.mem_of_getLast? hmsg)
  exact fun hkey ↦ hnodup.2.2 _ hkey _ (List.mem_map_of_mem hmem) rfl

/-- The view of a side that the generator `g` is not at work for. -/
theorem Sim.at_generator (h : Sim env s) {k : Source × Index} {pc : Generator.Pc}
    (hat : At s.exchange.base.generator s.exchange.popped k pc)
    (hactive : ∀ msg pc, s.exchange.base.generator g = some (msg, pc) → pc ≠ .done →
      key msg ≠ k) :
    At (Function.update s.exchange.base.generator g
        ((s.exchange.base.generator g).step o s.world).1)
      (s.exchange.popped ++ generatorPops s.exchange.base g) k pc := by
  cases hg : s.exchange.base.generator g with
  | none =>
    cases hlast : s.world.queue.getLast? with
    | none =>
      have hlast' : s.exchange.base.world.queue.getLast? = none := hlast
      simp only [Generator.Process.step, generatorPops, hg, hlast, hlast', Option.toList_none,
        List.append_nil]
      refine hat.update (fun msg pc hmsg ↦ ?_) (fun msg pc hmsg ↦ by cases hmsg) Iff.rfl
      rw [hg] at hmsg
      cases hmsg
    | some msg =>
      have hlast' : s.exchange.base.world.queue.getLast? = some msg := hlast
      simp only [Generator.Process.step, generatorPops, hg, hlast, hlast', Option.toList_some]
      exact hat.take h.inv.held hg (h.key_not_mem_popped hlast)
  | some held =>
    obtain ⟨msg, pc'⟩ := held
    have hpops : generatorPops s.exchange.base g = [] := by simp only [generatorPops, hg]
    rw [hpops, List.append_nil]
    by_cases hdone : pc' = .done
    · subst hdone
      exact hat.release h.inv.held h.inv.exclusive hg
    · have hkey := hactive msg pc' hg hdone
      rw [step_active hdone]
      refine hat.update (fun msg' pc'' hg' ↦ ?_) (fun msg' pc'' heq ↦ ?_) Iff.rfl
      · rw [hg] at hg'
        cases hg'
        exact hkey
      · cases heq
        exact hkey

omit [DecidableEq γ] in
/-- A generator writes under the index of the message it is at work for. -/
theorem generator_slot {x : Index}
    (hactive : ∀ msg pc, s.exchange.base.generator g = some (msg, pc) → pc ≠ .done →
      x ≠ msg.index) :
    ((s.exchange.base.generator g).step o s.world).2.slot x = s.world.slot x := by
  cases hg : s.exchange.base.generator g with
  | none =>
    rw [Generator.Process.step]
    split <;> rfl
  | some held =>
    obtain ⟨msg, pc⟩ := held
    by_cases hdone : pc = .done
    · subst hdone
      rfl
    · rw [step_active hdone]
      exact (World.setSlot_slot ..).trans (if_neg (hactive msg pc hg hdone))

/-- A generator at work for a side of an index takes that step of the transfer. -/
theorem Sim.generator_active (h : Sim env s) {T : Transfer.State cfg} {x : Index}
    (hshows : Shows s i x T) (hg : s.exchange.base.generator g = some (msg, pc))
    (hpc : pc ≠ .done) (hindex : x = msg.index)
    (hsteady : Regular env ((Party.start cfg).on (fun _ ↦ pc) (s.world.slot msg.index))
      (.generator msg.source o)) :
    let r := (s.exchange.base.generator g).step o s.world
    ∃ T', T.step env x (.generator msg.source o) = some T' ∧
      Regular env T (.generator msg.source o) ∧
      Shows { s with
        exchange := { s.exchange with
          base := { s.exchange.base with
            world := r.2, generator := Function.update s.exchange.base.generator g r.1 }
          popped := s.exchange.popped ++ generatorPops s.exchange.base g } } i x T' := by
  intro r
  subst hindex
  have hkey : key msg = (msg.source, msg.index) := rfl
  have hTpc : T.generator msg.source = pc :=
    (hshows.generator msg.source).eq_of_held h.inv.held h.inv.exclusive hg hkey
  have hr : r = (some (msg, (pc.step msg.source o (s.world.slot msg.index)).1),
      s.world.setSlot msg.index (pc.step msg.source o (s.world.slot msg.index)).2) := by
    rw [← step_active hpc, ← hg]
  have hstep : T.step env msg.index (.generator msg.source o) = some
      { T.withSlot (pc.step msg.source o (s.world.slot msg.index)).2 with
        generator := Function.update T.generator msg.source
          (pc.step msg.source o (s.world.slot msg.index)).1 } := by
    rw [Transfer.State.step, hTpc, if_neg hpc, hshows.slot]
  have hregular : Regular env T (.generator msg.source o) :=
    regular_congr (U := (Party.start cfg).on (fun _ ↦ pc) (s.world.slot msg.index)) hshows.slot
      hTpc hsteady
  have hself : (s.world.setSlot msg.index
      (pc.step msg.source o (s.world.slot msg.index)).2).slot msg.index =
        (pc.step msg.source o (s.world.slot msg.index)).2 := by
    rw [World.setSlot_slot, if_pos rfl]
  refine ⟨_, hstep, hregular, ?_, hshows.party, fun source ↦ ?_⟩
  · rw [hr]
    exact hself.symm
  · have hpops : generatorPops s.exchange.base g = [] := by simp only [generatorPops, hg]
    rw [hr, hpops, List.append_nil]
    dsimp only
    by_cases hsource : source = msg.source
    · subst hsource
      rw [Function.update_self]
      exact .held (Function.update_self ..) rfl
    · rw [Function.update_of_ne hsource]
      have hne : key msg ≠ (source, msg.index) := fun heq ↦ hsource (congrArg Prod.fst heq).symm
      refine (hshows.generator source).update (fun msg' pc' hg' ↦ ?_) (fun msg' pc' heq ↦ ?_)
        Iff.rfl
      · rw [hg] at hg'
        cases hg'
        exact hne
      · cases heq
        exact hne

theorem Sim.generator (h : Sim env s) (g : γ) (o : Generator.Outcome)
    (hsteady : ∀ msg pc, s.exchange.base.generator g = some (msg, pc) →
      Regular env ((Party.start cfg).on (fun _ ↦ pc) (s.world.slot msg.index))
        (.generator msg.source o)) :
    let r := (s.exchange.base.generator g).step o s.world
    Sim env { s with
      exchange := { s.exchange with
        base := { s.exchange.base with
          world := r.2, generator := Function.update s.exchange.base.generator g r.1 }
        popped := s.exchange.popped ++ generatorPops s.exchange.base g } } := by
  intro r
  -- The index of a message that is held was answered to somebody.
  have hheld {msg : Message} {pc : Generator.Pc}
      (hg : s.exchange.base.generator g = some (msg, pc)) :
      ∃ i d, s.dto i = some d ∧ d.index = msg.index :=
    h.exists_dto (h.mem_pushed (h.inv.held g msg pc hg))
  refine ⟨h.inv.generator g o, h.joined, h.party, ?_, ?_, ?_⟩
  · intro x hx
    have hslot : r.2.slot x = s.world.slot x := by
      refine generator_slot fun msg pc hg _ heq ↦ ?_
      obtain ⟨i, d, hd, hindex⟩ := hheld hg
      exact hx i d hd (hindex.trans heq.symm)
    have huntouched := h.untouched x hx
    rwa [← hslot] at huntouched
  · intro i x hi
    have hslot : r.2.slot x = s.world.slot x := by
      refine generator_slot fun msg pc hg _ heq ↦ ?_
      obtain ⟨j, d, hd, hindex⟩ := hheld hg
      exact h.ne_of_push hi hd (heq.trans hindex.symm)
    have huntouched := h.pushing i x hi
    rwa [← hslot] at huntouched
  · intro i d hd
    obtain ⟨lock, T, hT, hshows⟩ := h.run i d hd
    by_cases hactive : ∃ msg pc, s.exchange.base.generator g = some (msg, pc) ∧ pc ≠ .done ∧
      d.index = msg.index
    · obtain ⟨msg, pc, hg, hpc, hindex⟩ := hactive
      obtain ⟨T', hstep, hregular, hshows'⟩ :=
        h.generator_active hshows hg hpc hindex (hsteady msg pc hg)
      exact ⟨lock, T', hT.next hregular hstep, hshows'⟩
    · have hne {msg : Message} {pc : Generator.Pc}
          (hg : s.exchange.base.generator g = some (msg, pc)) (hpc : pc ≠ .done) :
          d.index ≠ msg.index := fun heq ↦ hactive ⟨msg, pc, hg, hpc, heq⟩
      refine ⟨lock, T, hT, ?_, hshows.party, fun source ↦ ?_⟩
      · exact hshows.slot.trans (generator_slot fun msg pc hg hpc ↦ hne hg hpc).symm
      · refine h.at_generator (hshows.generator source) fun msg pc hg hpc hkey ↦ ?_
        exact hne hg hpc (congrArg Prod.snd hkey).symm

end Generator

section Request

variable {nodeId : ℕ} {draw : Draw} {pc : GenSecret.Pc} {w : World}

/-- A request writes nothing but its lock. -/
theorem request_slot (x : Index) : (pc.step nodeId draw w).2.slot x =
    { w.slot x with lock := ((pc.step nodeId draw w).2.slot x).lock } := by
  rcases Pc.step_cases nodeId draw pc w with ⟨hslot, -⟩ | ⟨y, -, hr⟩
  · rw [hslot]
  · rw [hr]
    dsimp only
    rw [World.setSlot_slot]
    split_ifs with hxy
    · rw [hxy]
    · rfl

theorem set_of_step {x : Index} (h : (pc.step nodeId draw w).1 = .push x) : pc = .set x := by
  cases pc with
  | score y isExist =>
    simp only [Pc.step] at h
    split_ifs at h
  | set y =>
    simp only [Pc.step] at h
    split_ifs at h
    cases h
    rfl
  | push y =>
    simp only [Pc.step] at h
    split_ifs at h
  | _ => cases h

theorem push_of_answer {d : Dto} (hnone : Exchange.dto pc = none)
    (h : Exchange.dto (pc.step nodeId draw w).1 = some d) :
    ∃ x, pc = .push x ∧ d = ⟨serverNode, draw.randomNum, x⟩ := by
  rcases requestPushes_cases nodeId draw pc w with ⟨-, hsame⟩ | ⟨x, hpc, -, hd⟩
  · rw [hsame, hnone] at h
    cases h
  · exact ⟨x, hpc, Option.some.inj (h.symm.trans hd)⟩

theorem Untouched.request {x : Index} (h : Untouched (w.slot x)) :
    Untouched ((pc.step nodeId draw w).2.slot x) := by
  obtain ⟨lock, hlock⟩ := h
  refine ⟨((pc.step nodeId draw w).2.slot x).lock, ?_⟩
  rw [request_slot x, hlock]

/-- The candidate of a `set` is nobody's yet. -/
theorem Sim.candidate_free (h : Sim env s) {j : ι} {x : Index}
    (hfresh : FreshSet s.exchange.base (.request j nodeId draw))
    (hpc : s.exchange.base.request j = .set x) (hd : s.dto i = some d) : d.index ≠ x := by
  rintro rfl
  rw [FreshSet, hpc] at hfresh
  simpa [Taken, hfresh.1, hfresh.2] using h.inv.base.taken i d.index (holds_of_dto hd)

theorem Sim.candidate_untouched (h : Sim env s) {j : ι} {x : Index}
    (hfresh : FreshSet s.exchange.base (.request j nodeId draw))
    (hpc : s.exchange.base.request j = .set x) : Untouched (s.world.slot x) := by
  refine (h.untouched x fun i d hd ↦ h.candidate_free hfresh hpc hd).resolve_left ?_
  rw [FreshSet, hpc] at hfresh
  rw [show (s.world.slot x).time .server = none from hfresh.2]
  exact Bool.false_ne_true

/-- A request leaves the slot of an index alone that was answered. -/
theorem Sim.request_slot (h : Sim env s) {j : ι}
    (hfresh : FreshSet s.exchange.base (.request j nodeId draw)) (hd : s.dto i = some d) :
    ((s.exchange.base.request j).step nodeId draw s.world).2.slot d.index =
      s.world.slot d.index := by
  rcases Pc.step_cases nodeId draw (s.exchange.base.request j) s.world with
    ⟨hslot, -⟩ | ⟨x, hpc, hr⟩
  · rw [hslot]
  · rw [hr]
    exact (World.setSlot_slot ..).trans (if_neg (h.candidate_free hfresh hpc hd))

/-- The transfer of an index starts when its index is answered. -/
theorem Sim.request_answers (h : Sim env s) {j : ι} (hnone : s.dto j = none)
    (hd : Exchange.dto ((s.exchange.base.request j).step nodeId draw s.world).1 = some d) :
    ∃ lock, ((s.exchange.base.request j).step nodeId draw s.world).2.slot d.index =
        { Slot.empty with lock := lock } ∧
      ∀ source, At s.exchange.base.generator s.exchange.popped (source, d.index) .createTime := by
  obtain ⟨x, hpc, rfl⟩ := push_of_answer hnone hd
  obtain ⟨lock, hlock⟩ := h.pushing j x hpc
  refine ⟨lock, ?_, fun source ↦ .waiting fun hpopped ↦ ?_⟩
  · rw [hpc, ← hlock]
    simp only [Pc.step]
    split_ifs <;> rfl
  · obtain ⟨msg, hmsg, hkey⟩ := List.mem_map.mp hpopped
    obtain ⟨k, d, hd, hindex⟩ := h.exists_dto (h.mem_pushed hmsg)
    exact h.ne_of_push hpc hd ((hindex.trans (congrArg Prod.snd hkey)).symm)

variable [DecidableEq ι]

theorem dto_update {j : ι} (hd : s.dto i = some d) :
    Exchange.dto (Function.update s.exchange.base.request j
      ((s.exchange.base.request j).step nodeId draw s.world).1 i) = some d := by
  by_cases hij : i = j
  · subst hij
    rw [Function.update_self]
    exact dto_step hd
  · rwa [Function.update_of_ne hij]

theorem Sim.request (h : Sim env s) (j : ι) (draw : Draw)
    (hfresh : FreshSet s.exchange.base (.request j env.clientNode draw)) :
    let r := (s.exchange.base.request j).step env.clientNode draw s.world
    Sim env { s with
      exchange := { s.exchange with
        base := { s.exchange.base with
          world := r.2, request := Function.update s.exchange.base.request j r.1 }
        pushed := s.exchange.pushed ++
          requestPushes env.clientNode draw (s.exchange.base.request j) } } := by
  intro r
  refine ⟨h.inv.request j draw hfresh, ?_, ?_, ?_, ?_, ?_⟩
  · intro i hi
    obtain ⟨d, hd, hmem⟩ := h.joined i hi
    exact ⟨d, dto_update hd, List.mem_append_left _ hmem⟩
  · intro i hi
    refine h.party i (Option.eq_none_iff_forall_ne_some.mpr fun d hd ↦ ?_)
    exact Option.some_ne_none d ((dto_update hd).symm.trans hi)
  · intro x hx
    rcases h.untouched x fun i d hd ↦ hx i d (dto_update hd) with htime | huntouched
    · left
      change ((r.2.slot x).time .server).isSome
      rwa [Deployment.request_slot x]
    · exact .inr huntouched.request
  · intro i x hi
    refine Untouched.request ?_
    by_cases hij : i = j
    · subst hij
      have hr : r.1 = .push x :=
        (Function.update_self i r.1 s.exchange.base.request).symm.trans hi
      exact h.candidate_untouched hfresh (set_of_step hr)
    · exact h.pushing i x ((Function.update_of_ne hij r.1 _).symm.trans hi)
  · intro i d hd
    cases hold : s.dto i with
    | some d' =>
      obtain rfl : d' = d := Option.some.inj ((dto_update hold).symm.trans hd)
      obtain ⟨lock, T, hT, hshows⟩ := h.run i d' hold
      refine ⟨lock, T, hT, ?_, hshows.party, hshows.generator⟩
      exact hshows.slot.trans (h.request_slot hfresh hold).symm
    | none =>
      obtain rfl : i = j := by
        by_contra hij
        rw [State.dto, ← Function.update_of_ne hij r.1 s.exchange.base.request] at hold
        exact Option.some_ne_none d (hd.symm.trans hold)
      have hr : Exchange.dto r.1 = some d := by
        rw [← Function.update_self i r.1 s.exchange.base.request]
        exact hd
      obtain ⟨lock, hslot, hat⟩ := h.request_answers hold hr
      exact ⟨lock, answered cfg lock, .start, hslot.symm, (h.party i hold).symm, hat⟩

end Request

section Step

variable [DecidableEq ι] [DecidableEq γ]

theorem push_cases {node : ι → ℕ} {e e' : Exchange.State ι γ} {ok : Bool}
    (h : e.step node (.client i ok) = some e') :
    ∃ d, Exchange.dto (e.base.request i) = some d ∧ e'.base.world.slot = e.base.world.slot ∧
      e'.base.request = e.base.request ∧ e'.base.generator = e.base.generator ∧
        e'.popped = e.popped ∧ (∀ msg ∈ e.pushed, msg ∈ e'.pushed) ∧
          (ok = true → clientMessage (node i) d ∈ e'.pushed) := by
  simp only [Exchange.State.step] at h
  split at h
  · cases h
  · next d hd =>
    refine ⟨d, hd, ?_⟩
    split_ifs at h with hanswered hok
    · cases h
      exact ⟨rfl, rfl, rfl, rfl, fun msg hmsg ↦ List.mem_append_left _ hmsg, fun _ ↦ by simp⟩
    · cases h
      exact ⟨rfl, rfl, rfl, rfl, fun msg hmsg ↦ hmsg, fun h ↦ absurd h hok⟩

theorem Sim.push (h : Sim env s) {ok : Bool} {e : Exchange.State ι γ}
    (he : s.exchange.step (fun _ ↦ env.clientNode) (.client i ok) = some e) :
    Sim env { s with exchange := e, joined := Function.update s.joined i ok } := by
  obtain ⟨d, hd, hslot, hrequest, hgenerator, hpopped, hpushed, hok⟩ := push_cases he
  have hdto (j : ι) : Exchange.dto (e.base.request j) = s.dto j := by
    rw [hrequest]
    rfl
  refine ⟨h.inv.step (a := .client i ok) trivial he, ?_, ?_, ?_, ?_, ?_⟩
  · intro j hj
    simp only [State.dto, hdto]
    by_cases hji : j = i
    · subst hji
      exact ⟨d, hd, hok (by simpa using hj)⟩
    · obtain ⟨d', hd', hmem⟩ := h.joined j (by simpa [hji] using hj)
      exact ⟨d', hd', hpushed _ hmem⟩
  · intro j hj
    exact h.party j ((hdto j).symm.trans hj)
  · intro x hx
    have huntouched := h.untouched x fun j d' hd' ↦ hx j d' ((hdto j).trans hd')
    rwa [State.world, ← hslot] at huntouched
  · intro j x hj
    have huntouched := h.pushing j x (by rw [← hrequest]; exact hj)
    rwa [State.world, ← hslot] at huntouched
  · intro j d' hd'
    obtain ⟨lock, T, hT, hshows⟩ := h.run j d' ((hdto j).symm.trans hd')
    refine ⟨lock, T, hT, ?_, hshows.party, fun source ↦ ?_⟩
    · exact hshows.slot.trans (congrFun hslot d'.index).symm
    · dsimp only
      rw [hgenerator, hpopped]
      exact hshows.generator source

theorem Sim.step {a : Act cfg ι γ} (h : Sim env s) (ha : Steady env s a)
    (hstep : s.step env a = some t) : Sim env t := by
  cases a with
  | request j draw =>
    cases hstep
    exact h.request j draw ha
  | push j ok =>
    obtain ⟨e, he, rfl⟩ := Option.map_eq_some_iff.mp hstep
    exact h.push he
  | generator g o =>
    cases hstep
    exact h.generator g o ha
  | transfer j a =>
    simp only [State.step] at hstep
    cases hd : s.dto j with
    | none =>
      rw [hd] at hstep
      cases hstep
    | some d =>
      rw [hd] at hstep
      dsimp only at hstep
      split_ifs at hstep
      obtain ⟨u, hu, rfl⟩ := Option.map_eq_some_iff.mp hstep
      obtain ⟨lock, T, hT, hshows⟩ := h.run j d hd
      obtain ⟨ha, U, hU, rfl⟩ := hshows.step hu
      have hsim := h.transfer hd hT hshows ha hU
      exact hsim

theorem reachable_sim (hinit : Initial s) (hrun : Reachable (State.step env) (Steady env) s t) :
    Sim env t :=
  hrun.invariant hinit.sim fun _ _ _ hs ha h ↦ hs.step ha h

/-- The deployment around one queue runs like the transfers by themselves: what a client, the
requests for it and the generators that take its two messages do under the index it was answered
is a run of the transfer of that index. -/
theorem deployed_transfers (hinit : Initial s)
    (hrun : Reachable (State.step env) (Steady env) s t) (hd : t.dto i = some d) :
    ∃ lock T, Reachable (Transfer.State.step env d.index) (Regular env) (answered cfg lock) T ∧
      Shows t i d.index T :=
  (reachable_sim hinit hrun).run i d hd

/-- A transfer since its index was answered: it is generated, and then it is transferred. -/
def Going (env : Env cfg) (index : Index) (T : Transfer.State cfg) : Prop :=
  (Quiet env T ∧ ∃ source, T.slot.time source = none) ∨
    ∃ (created : Source → Option ℕ) (K : Bytes) (W : WaitingSecret cfg env.crc32c),
      Invariant env index created K W.bytes T

section Going

variable {T U : Transfer.State cfg} {index : Index}

omit [DecidableEq ι] [DecidableEq γ]

theorem answered_going (lock : Option Utils.Str) : Going env index (answered cfg lock) := by
  have hquiet : Quiet env (answered cfg lock) :=
    ⟨⟨fun _ ↦ rfl, rfl, rfl, fun _ ↦ rfl, trivial, fun _ ↦ rfl, fun _ ↦ rfl, fun _ ↦ rfl, rfl⟩,
      fun _ _ _ _ h ↦ (by cases h), fun _ ↦ rfl⟩
  exact .inl ⟨hquiet, .server, rfl⟩

theorem quiet_step {a : Transfer.Act cfg} (h : Quiet env T)
    (hnone : ∃ source, T.slot.time source = none) (hreg : Regular env T a)
    (hstep : T.step env index a = some U) : Quiet env U := by
  cases a with
  | generator source o => exact quiet_generator h hreg hstep
  | client => exact (quiet_client h hnone hstep).1
  | request p =>
    rw [(idle_step (h.process p)).1] at hstep
    cases hstep
  | process p =>
    rw [(idle_step (h.process p)).2] at hstep
    cases hstep

theorem Going.step {a : Transfer.Act cfg} (h : Going env index T) (hreg : Regular env T a)
    (hstep : T.step env index a = some U) : Going env index U := by
  rcases h with ⟨hquiet, hnone⟩ | ⟨created, K, W, hinv⟩
  · have hquiet' := quiet_step hquiet hnone hreg hstep
    by_cases hnone' : ∃ source, U.slot.time source = none
    · exact .inl ⟨hquiet', hnone'⟩
    · obtain ⟨K, W, hinv⟩ := hquiet'.invariant index fun source ↦
        Option.isSome_iff_ne_none.mpr fun htime ↦ hnone' ⟨source, htime⟩
      exact .inr ⟨_, K, W, hinv⟩
  · exact .inr ⟨created, K, W, invariant_step hinv hreg.freshCount hstep⟩

theorem Going.phase (h : Going env index T) : Phase env index T := by
  rcases h with ⟨hquiet, hnone⟩ | ⟨created, K, W, hinv⟩
  · exact .quiet hquiet hnone
  · exact .transfer W hinv

/-- A client that read the time of the server too early reads it again. -/
theorem exists_live {created : Source → Option ℕ} {K : Bytes} {W : WaitingSecret cfg env.crc32c}
    (hinv : Invariant env index created K W.bytes T)
    (hgenerator : ∀ source, T.generator source = .done)
    (hcreated : ∀ source, (created source).getD 0 ≠ 0) :
    ∃ U, Reachable (Transfer.State.step env index) (fun _ a ↦ IsTransfer a) T U ∧
      Live env index created K W.bytes U := by
  by_cases hpolled : ∀ serverCreateTime secretA,
      T.client = .pull (.clientTime serverCreateTime) secretA → serverCreateTime ≠ 0
  · exact ⟨T, .start, hinv, hgenerator, hcreated, hpolled⟩
  · push Not at hpolled
    obtain ⟨_, secretA, hc, rfl⟩ := hpolled
    have hstep : T.step env index .client =
        some { T.withSlot T.slot with client := .pull .serverTime secretA } := by
      rw [Transfer.State.step, Transfer.State.stepClient, hc]
      rfl
    refine ⟨_, Reachable.next (a := .client) .start trivial hstep,
      invariant_step (a := .client) hinv trivial hstep, hgenerator, hcreated, ?_⟩
    intro serverCreateTime secretA' heq
    cases heq

theorem exists_complete {created : Source → Option ℕ} {K : Bytes}
    {W : WaitingSecret cfg env.crc32c} (hinv : Invariant env index created K W.bytes T)
    (hgenerator : ∀ source, T.generator source = .done)
    (hcreated : ∀ source, (created source).getD 0 ≠ 0) :
    ∃ U, Reachable (Transfer.State.step env index) (fun _ a ↦ IsTransfer a) T U ∧
      Complete env W.bytes U := by
  obtain ⟨U, hU, hlive⟩ := exists_live hinv hgenerator hcreated
  obtain ⟨V, hV, hstuck⟩ := exists_stuck live_step U hlive
  have hlive' := hV.invariant hlive fun _ _ _ hs _ h ↦ (live_step _ _ _ hs h).1
  exact ⟨V, hU.trans hV, complete_of_stuck hlive'.toInvariant hstuck⟩

end Going

theorem Shows.transfer_eq {T : Transfer.State cfg} {a : Transfer.Act cfg}
    (h : Shows s i d.index T) (hd : s.dto i = some d) (hjoined : s.joined i = true)
    (ha : IsTransfer a) :
    s.step env (.transfer i a) = (T.step env d.index a).map fun U ↦
      { s.setSlot d.index U.slot with party := Function.update s.party i (.of U) } := by
  simp only [State.step, hd, hjoined, if_true, h.on_eq, step_withGenerator ha, Option.map_map]
  rfl

/-- What a transfer can do by itself, its client can do in the deployment. -/
theorem Shows.exists_run {T U : Transfer.State cfg} (h : Shows s i d.index T)
    (hd : s.dto i = some d) (hjoined : s.joined i = true)
    (hrun : Reachable (Transfer.State.step env d.index) (fun _ a ↦ IsTransfer a) T U) :
    ∃ t, Reachable (State.step env) (Steady env) s t ∧ t.dto i = some d ∧ t.joined i = true ∧
      Shows t i d.index U := by
  induction hrun with
  | start => exact ⟨s, .start, hd, hjoined, h⟩
  | @next U V a _ ha hstep ih =>
    obtain ⟨t, ht, hd, hjoined, hshows⟩ := ih
    have hact : t.step env (.transfer i a) =
        some { t.setSlot d.index V.slot with party := Function.update t.party i (.of V) } := by
      rw [hshows.transfer_eq hd hjoined ha, hstep, Option.map_some]
    exact ⟨_, ht.next (a := .transfer i a) trivial hact, hd, hjoined, hshows.next ha hstep⟩

/-- Both generations of an index are over and have set its times. -/
structure Generated (s : State cfg ι γ) (index : Index) : Prop where
  queue : ∀ msg ∈ s.world.queue, msg.index ≠ index
  held : ∀ g msg pc, s.exchange.base.generator g = some (msg, pc) → msg.index ≠ index
  time : ∀ source, ((s.world.slot index).time source).getD 0 ≠ 0

omit [DecidableEq ι] [DecidableEq γ] in
theorem Sim.generator_done (h : Sim env s) {T : Transfer.State cfg} (hd : s.dto i = some d)
    (hjoined : s.joined i = true) (hshows : Shows s i d.index T)
    (hgenerated : Generated s d.index) (source : Source) : T.generator source = .done := by
  have hpopped {msg : Message} (hmsg : msg ∈ s.exchange.pushed) (hindex : msg.index = d.index) :
      key msg ∈ s.exchange.popped.map key := by
    rw [h.inv.queue, List.mem_append, List.mem_reverse] at hmsg
    rcases hmsg with hmsg | hmsg
    · exact List.mem_map_of_mem hmsg
    · exact absurd hindex (hgenerated.queue msg hmsg)
  have hmem : (source, d.index) ∈ s.exchange.popped.map key := by
    cases source with
    | server => exact hpopped (h.inv.answer i d hd) rfl
    | client =>
      obtain ⟨d', hd', hmsg⟩ := h.joined i hjoined
      obtain rfl : d' = d := Option.some.inj (hd'.symm.trans hd)
      exact hpopped hmsg rfl
  have hat := hshows.generator source
  generalize T.generator source = pc at hat
  cases hat with
  | held hg hkey => exact absurd (congrArg Prod.snd hkey) (hgenerated.held _ _ _ hg)
  | ended => rfl
  | waiting hnot => exact absurd hmem hnot

def Arrived (env : Env cfg) (file : Bytes) (slot : Slot) : Prop :=
  slot.secret (.server, env.clientNode) = some file ∧
    slot.secret (.client, env.clientNode) = some file ∧
      slot.valid env.clientNode = some Utils.nodeSecretValid

/-- For every client at once: the files of a VALID secret are the same but for a client about to
write its own, and where both generations are over a client that cannot go on has the secret on
both sides, and one that has not can still get there. -/
theorem deployed_arrives (hinit : Initial s)
    (hrun : Reachable (State.step env) (Steady env) s t) (hd : t.dto i = some d) :
    ((t.world.slot d.index).valid env.clientNode = some Utils.nodeSecretValid →
      ∃ file, (t.world.slot d.index).secret (.server, env.clientNode) = some file ∧
        ((t.world.slot d.index).secret (.client, env.clientNode) = some file ∨
          ∃ progress loc, (t.party i).client = .gather progress loc ∧ Saving loc)) ∧
    (t.joined i = true → Generated t d.index → ∃ W : WaitingSecret cfg env.crc32c,
      ((∀ a, t.step env (.transfer i a) = none) → Arrived env W.bytes (t.world.slot d.index)) ∧
        ∃ u, Reachable (State.step env) (Steady env) t u ∧
          Arrived env W.bytes (u.world.slot d.index)) := by
  have hsim := reachable_sim hinit hrun
  obtain ⟨lock, T, hT, hshows⟩ := hsim.run i d hd
  have hgoing : Going env d.index T :=
    hT.invariant (answered_going lock) fun _ _ _ hs hreg h ↦ hs.step hreg h
  have hclient : (t.party i).client = T.client := by
    rw [← hshows.party]
    rfl
  have harrived {U : Transfer.State cfg} {W : WaitingSecret cfg env.crc32c}
      (h : Complete env W.bytes U) : Arrived env W.bytes U.slot := ⟨h.server, h.copy, h.valid⟩
  rw [← hshows.slot, hclient]
  refine ⟨hgoing.phase.agreement, fun hjoined hgenerated ↦ ?_⟩
  have hdone := hsim.generator_done hd hjoined hshows hgenerated
  have htime (source : Source) : (T.slot.time source).getD 0 ≠ 0 := by
    rw [hshows.slot]
    exact hgenerated.time source
  rcases hgoing with ⟨-, source, hnone⟩ | ⟨created, K, W, hinv⟩
  · exact absurd (by rw [hnone]; rfl) (htime source)
  · refine ⟨W, fun hstuck ↦ harrived (complete_of_stuck hinv fun a ↦ ?_), ?_⟩
    · by_cases ha : IsTransfer a
      · have hnone := hstuck a
        rw [hshows.transfer_eq hd hjoined ha] at hnone
        exact Option.map_eq_none_iff.mp hnone
      · cases a with
        | generator source o => exact if_pos (hdone source)
        | _ => exact absurd trivial ha
    · obtain ⟨U, hU, hcomplete⟩ := exists_complete hinv hdone (by rwa [hinv.time] at htime)
      obtain ⟨u, hu, -, -, hshows'⟩ := hshows.exists_run hd hjoined hU
      refine ⟨u, hu, ?_⟩
      rw [← hshows'.slot]
      exact harrived hcomplete

end Step

end Sim

section Release

def State.start : State Config.release (Fin 2) (Fin 1) :=
  ⟨Exchange.State.start, fun _ ↦ false, fun _ ↦ .start _⟩

theorem State.start_initial : Initial State.start where
  exchange := ⟨⟨fun _ ↦ rfl, fun _ ↦ rfl⟩, rfl, fun _ ↦ rfl, rfl, rfl⟩
  joined _ := rfl
  party _ := rfl
  slot _ := .inr ⟨none, rfl⟩

def ask (i : ι) : Act Config.release ι γ := .request i ⟨['a'], 7, true⟩

def join (i : ι) : Act Config.release ι γ := .push i true

def generate (g : γ) : Act Config.release ι γ :=
  .generator g ⟨some releaseKey, some releaseSecret.bytes, 1700000000⟩

theorem exists_generated : ∃ s, Reachable (State.step releaseEnv) (Steady releaseEnv) .start s ∧
    s.dto 0 = some ⟨0, 7, ['a']⟩ ∧ s.joined 0 = true ∧ Generated s ['a'] := by
  have hrun : Reachable (State.step releaseEnv) (Steady releaseEnv) .start State.start := .start
  have hrun := hrun.next (a := ask 0) trivial rfl
  have hrun := hrun.next (a := ask 0) trivial rfl
  have hrun := hrun.next (a := ask 0) trivial rfl
  have hrun := hrun.next (a := ask 0) ⟨rfl, rfl⟩ rfl
  have hrun := hrun.next (a := ask 0) trivial rfl
  have hrun := hrun.next (a := join 0) trivial rfl
  have hrun := hrun.next (a := generate 0) (fun msg pc hg ↦ by cases hg) rfl
  have hrun := hrun.next (a := generate 0) (fun msg pc hg ↦ by cases hg; trivial) rfl
  have hrun := hrun.next (a := generate 0) (fun msg pc hg ↦ by
    cases hg
    intro other key hkey
    cases hkey) rfl
  have hrun := hrun.next (a := generate 0) (fun msg pc hg ↦ by
    cases hg
    exact ⟨releaseSecret, rfl⟩) rfl
  have hrun := hrun.next (a := generate 0) (fun msg pc hg ↦ by cases hg; trivial) rfl
  have hrun := hrun.next (a := generate 0) (fun msg pc hg ↦ by cases hg; rfl) rfl
  have hrun := hrun.next (a := generate 0) (fun msg pc hg ↦ by cases hg; trivial) rfl
  have hrun := hrun.next (a := generate 0) (fun msg pc hg ↦ by cases hg; trivial) rfl
  have hrun := hrun.next (a := generate 0) (fun msg pc hg ↦ by cases hg) rfl
  have hrun := hrun.next (a := generate 0) (fun msg pc hg ↦ by cases hg; trivial) rfl
  have hrun := hrun.next (a := generate 0) (fun msg pc hg ↦ by
    cases hg
    intro other key hkey key' hkey'
    cases hkey'
    cases other with
    | server => exact Option.some.inj hkey
    | client => cases hkey) rfl
  have hrun := hrun.next (a := generate 0) (fun msg pc hg ↦ by cases hg; trivial) rfl
  have hrun := hrun.next (a := generate 0) (fun msg pc hg ↦ by cases hg; rfl) rfl
  have hrun := hrun.next (a := generate 0) (fun msg pc hg ↦ by cases hg; trivial) rfl
  refine ⟨_, hrun, rfl, rfl, ⟨?_, ?_, ?_⟩⟩
  · intro msg hmsg
    cases hmsg
  · intro g msg pc hg
    rw [Fin.fin_one_eq_zero g] at hg
    cases hg
  · intro source
    cases source <;> exact Nat.succ_ne_zero _

theorem deployed_transfers_release : ∃ t lock T,
    Reachable (State.step releaseEnv) (Steady releaseEnv) .start t ∧
      Reachable (Transfer.State.step releaseEnv ['a']) (Regular releaseEnv)
        (answered Config.release lock) T ∧ Shows t 0 ['a'] T := by
  obtain ⟨t, ht, hd, -, -⟩ := exists_generated
  obtain ⟨lock, T, hT, hshows⟩ := deployed_transfers State.start_initial ht hd
  exact ⟨t, lock, T, ht, hT, hshows⟩

theorem deployed_arrives_release : ∃ (W : WaitingSecret Config.release releaseEnv.crc32c) (t : _),
    Reachable (State.step releaseEnv) (Steady releaseEnv) .start t ∧
      Arrived releaseEnv W.bytes (t.world.slot ['a']) := by
  obtain ⟨s, hs, hd, hjoined, hgenerated⟩ := exists_generated
  obtain ⟨-, harrives⟩ := deployed_arrives State.start_initial hs hd
  obtain ⟨W, -, t, ht, harrived⟩ := harrives hjoined hgenerated
  exact ⟨W, t, hs.trans ht, harrived⟩

end Release

end ShannonNet.Transfer.Deployment
