import ShannonNet.Layout.Programs
import ShannonNet.Server.Exchange

namespace ShannonNet.Layout.Requests

open Library Library.Redis Library.Runs Server Server.GenSecret Utils

variable {ι γ : Type}

/-- The stores, the requests with their clients, and the generators. -/
structure State (ι γ : Type) where
  store : Flat
  request : ι → GenSecret.Pc
  answered : ι → Bool
  generator : γ → Generator.Process

/-- What `rand()` returns in `genRandomStr`, the number of `genRandomNum`, and whether the Redis
command succeeds. -/
structure Seed where
  rand : ℕ → ℕ
  randomNum : ℕ
  ok : Bool

def Seed.draw (d : Seed) : Draw := ⟨genRandomStr d.rand saveIndexLen, d.randomNum, d.ok⟩

inductive Act (ι γ : Type)
  | request (i : ι) (d : Seed)
  | client (i : ι) (ok : Bool)
  | generator (g : γ) (o : Generator.Outcome)

def Act.drawn : Act ι γ → Exchange.Act ι γ
  | request i d => .request i d.draw
  | client i ok => .client i ok
  | generator g o => .generator g o

def requestStep (nodeId : ℕ) (d : Seed) (w : Flat) :
    GenSecret.Pc → Option (GenSecret.Pc × Flat)
  | .generate => some (.get (genRandomStr d.rand saveIndexLen), w)
  | .get x => (Cmd.get.run x w).map fun r ↦ (.score x r.1.isSome, r.2)
  | .score x isExist =>
    ((Cmd.zscore (.time .server)).run x w).map fun r ↦
      (if !isExist && !r.1.isSome then .set x else .generate, r.2)
  | .set x =>
    if d.ok then ((Cmd.set ['1']).run x w).map fun r ↦ (.push x, r.2)
    else some (.done ⟨500, "randomStr set error", none⟩, w)
  | .push x =>
    if d.ok then
      (w.command .list (lpush ⟨.server, d.randomNum, x, serverNode, nodeId⟩)).map fun r ↦
        (.done ⟨200, "success", some ⟨serverNode, d.randomNum, x⟩⟩, r.2)
    else some (.done ⟨500, "json lpush error", none⟩, w)
  | .done res => some (.done res, w)

def generatorStep (o : Generator.Outcome) (w : Flat) :
    Generator.Process → Option (Generator.Process × Flat)
  | none => (w.command .list rpop).map fun r ↦ (r.1.map fun msg ↦ (msg, .createTime), r.2)
  | some (_, .done) => some (none, w)
  | some (msg, pc) =>
    ((generatorProg msg.source o pc).run msg.index w).map fun r ↦ (some (msg, r.1), r.2)

section Step

variable [DecidableEq ι] [DecidableEq γ] (node : ι → ℕ)

def State.step (s : State ι γ) : Act ι γ → Option (State ι γ)
  | .request i d =>
    (requestStep (node i) d s.store (s.request i)).map fun r ↦
      { s with store := r.2, request := Function.update s.request i r.1 }
  | .client i ok =>
    match Exchange.dto (s.request i) with
    | none => none
    | some dto =>
      if s.answered i then none
      else
        let s := { s with answered := Function.update s.answered i true }
        if ok then
          (s.store.command .list
            (lpush ⟨.client, dto.randomNum, dto.index, serverNode, node i⟩)).map fun r ↦
              { s with store := r.2 }
        else some s
  | .generator g o =>
    (generatorStep o s.store (s.generator g)).map fun r ↦
      { s with store := r.2, generator := Function.update s.generator g r.1 }

end Step

/-- The indices a request works on or has answered. -/
def Drawn : GenSecret.Pc → Prop
  | .generate => True
  | .get x => IsIndex x
  | .score x _ => IsIndex x
  | .set x => IsIndex x
  | .push x => IsIndex x
  | .done res => ∀ dto ∈ res.data, IsIndex dto.index

theorem Drawn.index {pc : GenSecret.Pc} (h : Drawn pc) {dto : Dto}
    (hdto : Exchange.dto pc = some dto) : IsIndex dto.index := by
  cases pc with
  | done res =>
    simp only [Exchange.dto] at hdto
    split_ifs at hdto
    exact h dto hdto
  | _ => cases hdto

/-- The flat stores hold what the world holds, by indices that were drawn. -/
structure Holds (w : Flat) (world : World) : Prop where
  typed : w.Typed
  slot : ∀ x, IsIndex x → world.slot x = w.slot x
  queue : world.queue = w.queue
  queued : ∀ msg ∈ w.queue, IsIndex msg.index

variable {w w' : Flat} {world : World}

theorem Holds.wrote (h : Holds w world) {x : Index} {t : Slot} (hwrote : w.Wrote w' x t) :
    Holds w' (world.setSlot x t) where
  typed := hwrote.typed
  slot y hy := by
    rw [World.setSlot_slot]
    split_ifs with hyx
    · rw [hyx, hwrote.slot_self]
    · rw [hwrote.slot_of_ne y hy hyx, h.slot y hy]
  queue := by rw [hwrote.queue, ← h.queue]; rfl
  queued := by rw [hwrote.queue]; exact h.queued

theorem Holds.kept (h : Holds w world) {x : Index} (hx : IsIndex x)
    (hwrote : w.Wrote w' x (w.slot x)) : Holds w' world := by
  have hself : world.setSlot x (w.slot x) = world :=
    World.setSlot_eq_self_iff.mpr (h.slot x hx).symm
  exact hself ▸ h.wrote hwrote

theorem Holds.setQueue (h : Holds w world) {queue : List Message} (hqueue : w.Queued w' queue)
    (hindex : ∀ msg ∈ queue, IsIndex msg.index) : Holds w' { world with queue := queue } where
  typed := hqueue.typed
  slot x hx := by rw [hqueue.slot x hx]; exact h.slot x hx
  queue := hqueue.queue.symm
  queued := by rw [hqueue.queue]; exact hindex

theorem requestStep_sim (h : Holds w world) (nodeId : ℕ) (d : Seed) {pc : GenSecret.Pc}
    (hpc : Drawn pc) :
    ∃ w', requestStep nodeId d w pc = some ((pc.step nodeId d.draw world).1, w') ∧
      Holds w' (pc.step nodeId d.draw world).2 ∧ Drawn (pc.step nodeId d.draw world).1 := by
  cases pc with
  | generate => exact ⟨w, rfl, h, isIndex_genRandomStr d.rand⟩
  | get x =>
    obtain ⟨w', hrun, hwrote⟩ := Cmd.get.run_eq h.typed hpc
    refine ⟨w', ?_, h.kept hpc hwrote, hpc⟩
    rw [requestStep, hrun, GenSecret.Pc.step, h.slot x hpc]
    rfl
  | score x isExist =>
    obtain ⟨w', hrun, hwrote⟩ := (Cmd.zscore (.time .server)).run_eq h.typed hpc
    refine ⟨w', ?_, h.kept hpc hwrote, ?_⟩
    · rw [requestStep, hrun, GenSecret.Pc.step, h.slot x hpc]
      rfl
    · rw [GenSecret.Pc.step]
      dsimp only
      split_ifs
      · exact hpc
      · trivial
  | set x =>
    cases hok : d.ok with
    | true =>
      obtain ⟨w', hrun, hwrote⟩ := (Cmd.set ['1']).run_eq h.typed hpc
      have hstep : (GenSecret.Pc.set x).step nodeId d.draw world =
          (.push x, world.setSlot x { world.slot x with lock := some ['1'] }) := by
        simp only [GenSecret.Pc.step, Seed.draw, hok, if_true]
      rw [hstep, h.slot x hpc]
      refine ⟨w', ?_, h.wrote hwrote, hpc⟩
      rw [requestStep, hok, if_pos rfl, hrun]
      rfl
    | false =>
      have hstep : (GenSecret.Pc.set x).step nodeId d.draw world =
          (.done ⟨500, "randomStr set error", none⟩, world) := by
        simp [GenSecret.Pc.step, Seed.draw, hok]
      rw [hstep]
      refine ⟨w, ?_, h, fun dto hdto ↦ by cases hdto⟩
      rw [requestStep, hok]
      rfl
  | push x =>
    cases hok : d.ok with
    | true =>
      obtain ⟨r, w', hrun, hqueued⟩ :=
        Flat.lpush_run h.typed ⟨.server, d.randomNum, x, serverNode, nodeId⟩
      have hstep : (GenSecret.Pc.push x).step nodeId d.draw world =
          (.done ⟨200, "success", some ⟨serverNode, d.randomNum, x⟩⟩,
            world.lpush ⟨.server, d.randomNum, x, serverNode, nodeId⟩) := by
        simp only [GenSecret.Pc.step, Seed.draw, hok, if_true]
      rw [hstep, World.lpush, h.queue]
      refine ⟨w', ?_, h.setQueue hqueued ?_, ?_⟩
      · rw [requestStep, hok, if_pos rfl, hrun]
        rfl
      · exact List.forall_mem_cons.mpr ⟨hpc, h.queued⟩
      · intro dto hdto
        cases hdto
        exact hpc
    | false =>
      have hstep : (GenSecret.Pc.push x).step nodeId d.draw world =
          (.done ⟨500, "json lpush error", none⟩, world) := by
        simp [GenSecret.Pc.step, Seed.draw, hok]
      rw [hstep]
      refine ⟨w, ?_, h, fun dto hdto ↦ by cases hdto⟩
      rw [requestStep, hok]
      rfl
  | done res => exact ⟨w, rfl, h, hpc⟩

theorem generatorStep_sim (h : Holds w world) (o : Generator.Outcome) {p : Generator.Process}
    (hp : ∀ msg pc, p = some (msg, pc) → IsIndex msg.index) :
    ∃ w', generatorStep o w p = some ((p.step o world).1, w') ∧
      Holds w' (p.step o world).2 ∧
        ∀ msg pc, (p.step o world).1 = some (msg, pc) → IsIndex msg.index := by
  cases p with
  | none =>
    obtain ⟨w', hrun, hqueued⟩ := Flat.rpop_run h.typed
    have hindex : ∀ msg ∈ w.queue.dropLast, IsIndex msg.index :=
      fun msg hmsg ↦ h.queued msg (List.mem_of_mem_dropLast hmsg)
    have hholds := h.setQueue hqueued hindex
    cases hlast : w.queue.getLast? with
    | none =>
      have hnil : world.queue = w.queue.dropLast := by
        rw [h.queue, List.getLast?_eq_none_iff.mp hlast]
        rfl
      have hstep : Generator.Process.step o none world = (none, world) := by
        rw [Generator.Process.step, h.queue, hlast]
      rw [hstep]
      refine ⟨w', ?_, ?_, fun msg pc hmsg ↦ by cases hmsg⟩
      · rw [generatorStep, hrun, hlast]
        rfl
      · rw [← hnil] at hholds
        exact hholds
    | some msg =>
      have hstep : Generator.Process.step o none world =
          (some (msg, .createTime), { world with queue := w.queue.dropLast }) := by
        simp only [Generator.Process.step, h.queue, hlast]
      rw [hstep]
      refine ⟨w', ?_, hholds, ?_⟩
      · rw [generatorStep, hrun, hlast]
        rfl
      · intro msg' pc hmsg
        cases hmsg
        exact h.queued msg (List.mem_of_getLast? hlast)
  | some held =>
    obtain ⟨msg, pc⟩ := held
    have hindex := hp msg pc rfl
    by_cases hdone : pc = .done
    · subst hdone
      exact ⟨w, rfl, h, fun msg' pc' hmsg ↦ by cases hmsg⟩
    · obtain ⟨w', hrun, hwrote⟩ := (generatorProg msg.source o pc).run_eq h.typed hindex
      rw [generatorProg_step, ← h.slot msg.index hindex] at hrun hwrote
      have hstep : Generator.Process.step o (some (msg, pc)) world =
          (some (msg, (pc.step msg.source o (world.slot msg.index)).1),
            world.setSlot msg.index (pc.step msg.source o (world.slot msg.index)).2) := by
        cases pc <;> first | rfl | exact absurd rfl hdone
      have hflat : generatorStep o w (some (msg, pc)) =
          ((generatorProg msg.source o pc).run msg.index w).map fun r ↦ (some (msg, r.1), r.2) := by
        cases pc <;> first | rfl | exact absurd rfl hdone
      rw [hstep]
      refine ⟨w', ?_, h.wrote hwrote, ?_⟩
      · rw [hflat, hrun]
        rfl
      · intro msg' pc' hmsg
        cases hmsg
        exact hindex

structure Represents (s : State ι γ) (t : Exchange.State ι γ) : Prop where
  holds : Holds s.store t.base.world
  request : t.base.request = s.request
  generator : t.base.generator = s.generator
  answered : t.answered = s.answered
  drawn : ∀ i, Drawn (s.request i)
  held : ∀ g msg pc, s.generator g = some (msg, pc) → IsIndex msg.index

section Runs

variable [DecidableEq ι] [DecidableEq γ] {node : ι → ℕ} {s : State ι γ} {t : Exchange.State ι γ}

theorem Represents.step (h : Represents s t) (a : Act ι γ) :
    Option.Rel Represents (s.step node a) (t.step node a.drawn) := by
  cases a with
  | request i d =>
    obtain ⟨w', hrun, hholds, hdrawn⟩ := requestStep_sim h.holds (node i) d (h.drawn i)
    rw [State.step, hrun]
    rw [← h.request] at hholds hdrawn ⊢
    refine .some ⟨hholds, by rw [h.request], h.generator, h.answered, ?_, h.held⟩
    intro j
    by_cases hj : j = i
    · subst hj
      simpa only [Function.update_self] using hdrawn
    · simpa only [Function.update_of_ne hj, h.request] using h.drawn j
  | client i ok =>
    have hdto : Exchange.dto (t.base.request i) = Exchange.dto (s.request i) := by rw [h.request]
    rw [State.step, Act.drawn, Exchange.State.step, hdto, h.answered]
    cases hd : Exchange.dto (s.request i) with
    | none => exact .none
    | some dto =>
      dsimp only
      split_ifs with hanswered hok
      · exact .none
      · have hindex : IsIndex dto.index := (h.drawn i).index hd
        obtain ⟨r, w', hrun, hqueued⟩ :=
          Flat.lpush_run h.holds.typed ⟨.client, dto.randomNum, dto.index, serverNode, node i⟩
        rw [hrun]
        have hholds := h.holds.setQueue hqueued
          (List.forall_mem_cons.mpr ⟨hindex, h.holds.queued⟩)
        rw [← h.holds.queue] at hholds
        exact .some ⟨hholds, h.request, h.generator, rfl, h.drawn, h.held⟩
      · exact .some ⟨h.holds, h.request, h.generator, rfl, h.drawn, h.held⟩
  | generator g o =>
    obtain ⟨w', hrun, hholds, hheld⟩ := generatorStep_sim h.holds o (h.held g)
    rw [State.step, hrun]
    rw [← h.generator] at hholds hheld ⊢
    refine .some ⟨hholds, h.request, by rw [h.generator], h.answered, h.drawn, ?_⟩
    intro g' msg pc hg'
    by_cases hg : g' = g
    · subst hg
      exact hheld msg pc (by simpa only [Function.update_self] using hg')
    · exact h.held g' msg pc (by simpa only [Function.update_of_ne hg, h.generator] using hg')

/-- The exchange on one space of keys runs like the exchange with a slot for every index: `SET`
never replaces another value, no command meets a key of another type, and every index that is
drawn, queued or held has letters and digits only. -/
theorem requests_share_nothing (h : Represents s t) (acts : List (Act ι γ)) :
    Option.Rel Represents (exec (State.step node) s acts)
      (exec (fun t a ↦ t.step node a.drawn) t acts) :=
  exec_rel (fun a _ _ _ hst ↦ hst.step a) h

end Runs

def State.start : State (Fin 2) (Fin 1) :=
  ⟨Flat.empty, fun _ ↦ .generate, fun _ ↦ false, fun _ ↦ none⟩

theorem represents_start : Represents State.start Exchange.State.start where
  holds := ⟨Flat.empty_typed, fun _ _ ↦ rfl, rfl, fun msg hmsg ↦ by cases hmsg⟩
  request := rfl
  generator := rfl
  answered := rfl
  drawn _ := trivial
  held g msg pc hg := by cases hg

/-- A request with its client, and a generator that takes both messages. -/
def exchange (i : ι) (g : γ) : List (Act ι γ) :=
  List.replicate 5 (.request i ⟨fun k ↦ k, 7, true⟩) ++
    [.client i true, .generator g ⟨none, none, 0⟩, .generator g ⟨none, none, 0⟩]

theorem requests_share_nothing_exchange :
    (exec (State.step fun _ ↦ 1) State.start (exchange 0 0)).isSome ∧
      Option.Rel Represents (exec (State.step fun _ ↦ 1) State.start (exchange 0 0))
        (exec (fun t a ↦ t.step (fun _ ↦ 1) a.drawn) Exchange.State.start (exchange 0 0)) :=
  ⟨rfl, requests_share_nothing represents_start (exchange 0 0)⟩

end ShannonNet.Layout.Requests
