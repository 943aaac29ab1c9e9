import ShannonNet.Layout.Programs
import ShannonNet.Transfer.Lossless

namespace ShannonNet.Layout

open Library.Runs Library.Bitset Library.Buffer Client Server Transfer

variable {cfg : Config}

/-- Where the parties of one index stand, without what the stores hold. -/
structure Control (cfg : Config) where
  request : Fin cfg.progress → GetData.Pc
  counted : List (Fin cfg.progress)
  entered : List (Fin cfg.progress)
  generator : Source → Generator.Pc
  client : ClientRun
  process : Fin cfg.progress → Process

namespace Control

variable (env : Env cfg) (index : Index) (c : Control cfg)

def on (s : Slot) : Transfer.State cfg :=
  ⟨⟨s, c.request, c.counted, c.entered⟩, c.generator, c.client, c.process⟩

def handOut : Option ℕ → Option (Control cfg)
  | none => some c
  | some num =>
    if h : num < cfg.progress then
      match c.process ⟨num, h⟩ with
      | .idle => some { c with process := Function.update c.process ⟨num, h⟩ .start }
      | _ => none
    else none

def clientProg : Prog (Option (Control cfg)) :=
  match c.client with
  | .pull .pull none =>
    .read (.running .client) fun file ↦
      file.map fun running ↦ { c with client := .pull .pull (some running) }
  | .pull (.gather progress) _ =>
    .pure (if ∀ p, (c.process p).over = true then
      some { c with client := .gather progress (.readPiece 0 (zeros cfg.secretASize)) }
    else none)
  | .pull loop secretA =>
    (pullProg cfg loop).map fun r ↦
      r.bind fun r ↦ handOut { c with client := .pull r.1 secretA } r.2
  | .gather progress loc =>
    (gatherProg cfg env.crc32c env.dir env.clientNode progress loc).map
      (Option.map fun loc ↦ { c with client := .gather progress loc })

/-- The step of a party, with the command it sends. -/
def prog : Act cfg → Prog (Option (Control cfg))
  | .generator source o =>
    if c.generator source = .done then .pure none
    else (generatorProg source o (c.generator source)).map fun pc ↦
      some { c with generator := Function.update c.generator source pc }
  | .request p =>
    match c.process p with
    | .sent => (getDataProg env.dir (env.request index p) (c.request p)).map (Option.map fun pc ↦
      { c with
        request := Function.update c.request p pc
        counted := if (c.request p).isZincrby then p :: c.counted else c.counted
        entered := if pc.isMoveRead then p :: c.entered else c.entered })
    | _ => .pure none
  | .process p =>
    (processProg cfg c.client.secretA p (c.request p) (c.process p)).map
      (Option.map fun pr ↦ { c with process := Function.update c.process p pr })
  | .client => c.clientProg env

variable {env index c} {s : Slot}

theorem on_handOut (piece : Option ℕ) :
    (c.on s).handOut piece = (c.handOut piece).map fun c ↦ c.on s := by
  cases piece with
  | none => rfl
  | some num =>
    have hprocess : (c.on s).process = c.process := rfl
    rw [Transfer.State.handOut, handOut, hprocess]
    split_ifs with hnum
    · cases hp : c.process ⟨num, hnum⟩ <;> rfl
    · rfl

theorem clientProg_step :
    (c.on s).stepClient env = ((c.clientProg env).exec s).map fun r ↦ r.1.on r.2 := by
  have hpull (loop : Pull) (secretA : Option Bytes) :
      ((loop.step cfg s).bind fun r ↦
        Transfer.State.handOut
          { (c.on s).withSlot r.2.1 with client := .pull r.1 secretA } r.2.2) =
        (((pullProg cfg loop).map fun r ↦
          r.bind fun r ↦ handOut { c with client := .pull r.1 secretA } r.2).exec s).map
            fun r ↦ r.1.on r.2 := by
    rw [← pullProg_step, Prog.exec, Prog.exec, Prog.onSlot_map]
    cases ((pullProg cfg loop).onSlot s).1 with
    | none => rfl
    | some r =>
      simp only [Option.map_some, Option.bind_some, Option.map_map]
      exact on_handOut (c := { c with client := .pull r.1 secretA }) r.2
  have hclient : (c.on s).client = c.client := rfl
  rw [Transfer.State.stepClient, clientProg, hclient]
  cases hc : c.client with
  | pull loop secretA =>
    cases loop with
    | pull =>
      cases secretA with
      | none =>
        simp only [Prog.exec, Prog.onSlot_read, Option.map_map]
        rfl
      | some running => exact hpull .pull (some running)
    | gather progress =>
      simp only [Prog.exec, Prog.onSlot, Option.map_map]
      have hprocess : (c.on s).process = c.process := rfl
      rw [hprocess]
      by_cases hover : ∀ p, (c.process p).over = true
      · rw [if_pos hover, if_pos hover]
        rfl
      · rw [if_neg hover, if_neg hover]
        rfl
    | _ => exact hpull _ secretA
  | gather progress loc =>
    simp only [Prog.exec_map, gatherProg_step, Option.map_map]
    rfl

theorem prog_step (a : Act cfg) :
    (c.on s).step env index a = ((c.prog env index a).exec s).map fun r ↦ r.1.on r.2 := by
  cases a with
  | generator source o =>
    rw [Transfer.State.step, prog]
    have hgenerator : (c.on s).generator = c.generator := rfl
    rw [hgenerator]
    split_ifs with hdone
    · rfl
    · rw [Prog.exec, Prog.onSlot_map, generatorProg_step]
      rfl
  | request p =>
    have hprocess : (c.on s).process = c.process := rfl
    rw [Transfer.State.step, prog, hprocess]
    cases hp : c.process p with
    | sent =>
      simp only [Prog.exec_map, getDataProg_step, Pool.step, Option.map_map]
      rfl
    | _ => rfl
  | process p =>
    simp only [Transfer.State.step, prog, Prog.exec_map, processProg_step, Option.map_map]
    rfl
  | client => exact clientProg_step

end Control

/-- The stores, and the parties of every index. -/
structure State (cfg : Config) where
  store : Flat
  control : Index → Control cfg

/-- The files of the stages, which no slot holds. -/
inductive Stage
  | share (source : Source) (threadIdx : ℕ)
  | tmp (source : Source) (fileIdx threadIdx : ℕ)

def Stage.file : Stage → File
  | share source threadIdx => .share source threadIdx
  | tmp source fileIdx threadIdx => .tmp source fileIdx threadIdx

theorem Stage.file_ne (f : Stage) (k : Kept) : k.file ≠ f.file := by
  cases f <;> cases k <;> simp [Kept.file, file]

inductive Act (cfg : Config)
  | transfer (index : Index) (a : Transfer.Act cfg)
  | stage (index : Index) (f : Stage) (v : Option Bytes)

def Act.index : Act cfg → Index
  | transfer index _ => index
  | stage index _ _ => index

variable (env : Env cfg)

def State.step (s : State cfg) : Act cfg → Option (State cfg)
  | .transfer index a =>
    (((s.control index).prog env index a).run index s.store).bind fun r ↦
      r.1.map fun c ↦ ⟨r.2, Function.update s.control index c⟩
  | .stage index f v => some { s with store := s.store.setFile index f.file v }

/-- The transfers side by side, with a slot of its own for every index. -/
def sideBySide (T : Index → Transfer.State cfg) : Act cfg → Option (Index → Transfer.State cfg)
  | .transfer index a => product (fun index t ↦ t.step env index) T (index, a)
  | .stage _ _ _ => some T

structure Represents (s : State cfg) (T : Index → Transfer.State cfg) : Prop where
  typed : s.store.Typed
  transfer : ∀ x, IsIndex x → T x = (s.control x).on (s.store.slot x)

variable {env} {s : State cfg} {T : Index → Transfer.State cfg}

theorem Represents.step (h : Represents s T) {a : Act cfg} (ha : IsIndex a.index) :
    Option.Rel Represents (s.step env a) (sideBySide env T a) := by
  cases a with
  | transfer index a =>
    have hindex : IsIndex index := ha
    obtain ⟨w, hrun, hwrote⟩ := ((s.control index).prog env index a).run_eq h.typed hindex
    rw [State.step, hrun, sideBySide, product, h.transfer index hindex, Control.prog_step,
      Prog.exec]
    cases (((s.control index).prog env index a).onSlot (s.store.slot index)).1 with
    | none => exact .none
    | some c =>
      refine .some ⟨hwrote.typed, fun x hx ↦ ?_⟩
      by_cases hxi : x = index
      · subst hxi
        simp only [Function.update_self, hwrote.slot_self]
      · simp only [Function.update_of_ne hxi, hwrote.slot_of_ne x hx hxi]
        exact h.transfer x hx
  | stage index f v =>
    have hindex : IsIndex index := ha
    refine .some ⟨h.typed, fun x hx ↦ ?_⟩
    rw [h.transfer x hx]
    exact congrArg _ (Flat.slot_setFile_of_forall_ne hindex hx f.file_ne v).symm

theorem Represents.step_eq_none_iff (h : Represents s T) {x : Index} (hx : IsIndex x)
    (a : Transfer.Act cfg) : s.step env (.transfer x a) = none ↔ (T x).step env x a = none := by
  have hrel : Option.Rel Represents (s.step env (.transfer x a))
      (sideBySide env T (.transfer x a)) := h.step hx
  have hside : sideBySide env T (.transfer x a) = none ↔ (T x).step env x a = none :=
    Option.map_eq_none_iff
  rw [← hside]
  generalize s.step env (.transfer x a) = u at hrel
  generalize sideBySide env T (.transfer x a) = u' at hrel
  cases hrel with
  | none => exact ⟨fun _ ↦ rfl, fun _ ↦ rfl⟩
  | some _ => simp

/-- On indices that `genRandomStr` can return, the program on one space of keys and one of paths
runs like transfers that share nothing: a run goes through on both sides or on none, no command
meets a key of another type, and every index finds under its names what it has put there. -/
theorem transfers_share_nothing {acts : List (Act cfg)} (hacts : ∀ a ∈ acts, IsIndex a.index)
    (h : Represents s T) :
    Option.Rel Represents (exec (State.step env) s acts) (exec (sideBySide env) T acts) :=
  exec_rel (fun a ha _ _ hst ↦ hst.step (hacts a ha)) h

/-- What an act is for the index `x`. -/
def Act.under (x : Index) : Act cfg → Option (Transfer.Act cfg)
  | transfer index a => if index = x then some a else none
  | stage _ _ _ => none

/-- One index of a run side by side runs by itself. -/
theorem exec_under {T' : Index → Transfer.State cfg} {acts : List (Act cfg)}
    (h : exec (sideBySide env) T acts = some T') (x : Index) :
    exec (Transfer.State.step env x) (T x) (acts.filterMap (Act.under x)) = some (T' x) := by
  induction acts generalizing T with
  | nil =>
    cases h
    rfl
  | cons a acts ih =>
    obtain ⟨U, hU, h⟩ := Option.bind_eq_some_iff.mp h
    have hrest := ih h
    cases a with
    | transfer index a =>
      obtain ⟨u, hu, rfl⟩ := Option.map_eq_some_iff.mp hU
      dsimp only at hu hrest
      by_cases hx : index = x
      · subst hx
        have hact : Act.under index (.transfer index a) = some a := if_pos rfl
        rw [Function.update_self] at hrest
        rw [List.filterMap_cons_some hact, exec, hu]
        exact hrest
      · have hact : Act.under x (.transfer index a) = none := if_neg hx
        rw [Function.update_of_ne (Ne.symm hx)] at hrest
        rwa [List.filterMap_cons_none hact]
    | stage index f v =>
      cases hU
      rwa [List.filterMap_cons_none rfl]

/-- A published index among any others: its parties take a bounded number of steps, and when they
have none left both files of the secret are under their paths and its score says VALID. -/
theorem published_arrives {t : State cfg} {acts : List (Act cfg)} {x : Index} {K : Bytes}
    {W : WaitingSecret cfg env.crc32c} (hx : IsIndex x) (hacts : ∀ a ∈ acts, IsIndex a.index)
    (htyped : s.store.Typed)
    (hpublished : Published env K W.bytes ((s.control x).on (s.store.slot x)))
    (hrun : exec (State.step env) s acts = some t) :
    (acts.filterMap (Act.under x)).length ≤ rank ((s.control x).on (s.store.slot x)) ∧
      ((∀ a, t.step env (.transfer x a) = none) →
        t.store.file x (.secret .server env.clientNode) = some W.bytes ∧
          t.store.file x (.secret .client env.clientNode) = some W.bytes ∧
          t.store.score (.valid env.clientNode) x = some Utils.nodeSecretValid) := by
  have hrel : Option.Rel Represents (exec (State.step env) s acts)
      (exec (sideBySide env) (fun y ↦ (s.control y).on (s.store.slot y)) acts) :=
    exec_rel (fun a ha _ _ hst ↦ hst.step (hacts a ha)) ⟨htyped, fun _ _ ↦ rfl⟩
  rw [hrun] at hrel
  generalize hT : exec (sideBySide env) (fun y ↦ (s.control y).on (s.store.slot y)) acts = T'
    at hrel
  cases hrel with
  | @some _ T' hrep =>
    have hunder := exec_under hT x
    refine ⟨exec_length_le live_step hpublished.live hunder, ?_⟩
    intro hstuck
    have hlive := (Reachable.of_exec hunder).invariant hpublished.live
      fun s a t hs _ h ↦ (live_step s a t hs h).1
    have hcomplete := complete_of_stuck hlive.toInvariant ?_
    · rw [hrep.transfer x hx] at hcomplete
      exact ⟨hcomplete.server, hcomplete.copy, hcomplete.valid⟩
    · exact fun a ↦ (hrep.step_eq_none_iff hx a).mp (hstuck a)

/-- What one index does alone it does on the flat stores too. -/
theorem Represents.exec_transfer (h : Represents s T) {x : Index} (hx : IsIndex x)
    {acts : List (Transfer.Act cfg)} {u : Transfer.State cfg}
    (hacts : exec (Transfer.State.step env x) (T x) acts = some u) :
    ∃ t, exec (State.step env) s (acts.map (.transfer x)) = some t ∧
      Represents t (Function.update T x u) := by
  induction acts generalizing s T with
  | nil =>
    cases hacts
    refine ⟨s, rfl, ?_⟩
    rwa [Function.update_eq_self]
  | cons a acts ih =>
    obtain ⟨v, hv, hacts⟩ := Option.bind_eq_some_iff.mp hacts
    have hside : sideBySide env T (.transfer x a) = some (Function.update T x v) :=
      congrArg (Option.map (Function.update T x)) hv
    have hstep : Option.Rel Represents (s.step env (.transfer x a))
        (sideBySide env T (.transfer x a)) := h.step hx
    rw [hside] at hstep
    generalize hs : s.step env (.transfer x a) = s' at hstep
    cases hstep with
    | @some s' _ hrep =>
      obtain ⟨t, ht, hrep'⟩ := ih hrep (by rwa [Function.update_self])
      rw [Function.update_idem] at hrep'
      exact ⟨t, by rwa [List.map_cons, exec, hs], hrep'⟩

def Control.fresh (cfg : Config) : Control cfg where
  request _ := .createTime
  counted := []
  entered := []
  generator _ := .createTime
  client := .pull .serverTime none
  process _ := .idle

theorem represents_fresh (cfg : Config) :
    Represents ⟨Flat.empty, fun _ ↦ Control.fresh cfg⟩ fun _ ↦ Transfer.State.fresh cfg :=
  ⟨Flat.empty_typed, fun _ _ ↦ rfl⟩

/-- An index is generated, published and transferred, from the empty stores on. -/
theorem published_arrives_release : ∃ (s t : State Config.release) (acts : List (Act _)),
    exec (State.step releaseEnv) s acts = some t ∧
      t.store.file ['a'] (.secret .client 1) = some releaseSecret.bytes := by
  have hx : IsIndex ['a'] := by decide
  obtain ⟨s₀, hreach, hpublished⟩ :=
    exists_published releaseEnv ['a'] releaseKey releaseSecret
  obtain ⟨acts₀, hacts₀⟩ := hreach.exists_exec
  obtain ⟨s, -, hs⟩ := (represents_fresh Config.release).exec_transfer hx hacts₀
  have hslot : s₀ = (s.control ['a']).on (s.store.slot ['a']) := by
    simpa only [Function.update_self] using hs.transfer ['a'] hx
  rw [hslot] at hpublished
  obtain ⟨t₀, hreach, hstuck⟩ := exists_stuck live_step _ hpublished.live
  obtain ⟨acts, hacts⟩ := hreach.exists_exec
  rw [← hslot] at hacts
  obtain ⟨t, ht, hrep⟩ := hs.exec_transfer hx (by rwa [Function.update_self])
  have hproper : ∀ a ∈ acts.map (Act.transfer ['a']), IsIndex a.index := by
    intro a ha
    obtain ⟨a, -, rfl⟩ := List.mem_map.mp ha
    exact hx
  refine ⟨s, t, _, ht, ?_⟩
  obtain ⟨-, harrives⟩ := published_arrives hx hproper hs.typed hpublished ht
  refine (harrives fun a ↦ (hrep.step_eq_none_iff hx a).mpr ?_).2.1
  rw [Function.update_self, hstuck a]

def twoIndices : List (Act Config.release) :=
  [.transfer ['a'] (.generator .server ⟨some [1], none, 5⟩),
    .transfer ['b'] (.generator .server ⟨some [2], none, 6⟩),
    .transfer ['a'] (.generator .server ⟨some [1], none, 5⟩),
    .stage ['b'] (.share .server 0) (some [3]), .transfer ['a'] .client]

theorem transfers_share_nothing_two :
    (exec (State.step releaseEnv) ⟨Flat.empty, fun _ ↦ Control.fresh _⟩ twoIndices).isSome ∧
      Option.Rel Represents
        (exec (State.step releaseEnv) ⟨Flat.empty, fun _ ↦ Control.fresh _⟩ twoIndices)
        (exec (sideBySide releaseEnv) (fun _ ↦ Transfer.State.fresh _) twoIndices) :=
  ⟨rfl, transfers_share_nothing (by decide) (represents_fresh _)⟩

end ShannonNet.Layout
