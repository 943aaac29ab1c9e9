import ShannonNet.Server.GenSecret
import Mathlib.Data.List.Nodup

namespace ShannonNet.Server.Exchange

open Library.Runs GenSecret

variable {ι γ : Type}

/-- The requests of `genSecret`, whether the client behind each has gone on from the answer, and
all messages that entered and left the queue, oldest first. -/
structure State (ι γ : Type) where
  base : GenSecret.State ι γ
  answered : ι → Bool
  pushed : List Message
  popped : List Message

inductive Act (ι γ : Type)
  | request (i : ι) (d : Draw)
  | client (i : ι) (ok : Bool)
  | generator (g : γ) (o : Generator.Outcome)

/-- What a client reads from the response. -/
def dto : Pc → Option Dto
  | .done res => if res.statusCode = 200 then res.data else none
  | _ => none

def serverMessage (nodeId : ℕ) (dto : Dto) : Message :=
  ⟨.server, dto.randomNum, dto.index, serverNode, nodeId⟩

def clientMessage (clientNode : ℕ) (dto : Dto) : Message :=
  ⟨.client, dto.randomNum, dto.index, serverNode, clientNode⟩

/-- The messages a step of a request pushes. -/
def requestPushes (nodeId : ℕ) (d : Draw) : Pc → List Message
  | .push x => if d.ok then [serverMessage nodeId ⟨serverNode, d.randomNum, x⟩] else []
  | _ => []

/-- The messages a step of a generator takes. -/
def generatorPops (s : GenSecret.State ι γ) (g : γ) : List Message :=
  match s.generator g with
  | none => s.world.queue.getLast?.toList
  | some _ => []

section Step

variable [DecidableEq ι] [DecidableEq γ] (node : ι → ℕ)

/-- A client whose `lpush` fails starts another exchange. -/
def State.step (s : State ι γ) : Act ι γ → Option (State ι γ)
  | .request i d =>
    (s.base.step (.request i (node i) d)).map fun base ↦
      { s with base := base, pushed := s.pushed ++ requestPushes (node i) d (s.base.request i) }
  | .client i ok =>
    match dto (s.base.request i) with
    | none => none
    | some dto =>
      if s.answered i then none
      else
        let s := { s with answered := Function.update s.answered i true }
        if ok then
          (s.base.step (.clientPush dto.randomNum dto.index (node i))).map fun base ↦
            { s with base := base, pushed := s.pushed ++ [clientMessage (node i) dto] }
        else some s
  | .generator g o =>
    (s.base.step (.generator g o)).map fun base ↦
      { s with base := base, popped := s.popped ++ generatorPops s.base g }

def Fresh (s : State ι γ) : Act ι γ → Prop
  | .request i d => FreshSet s.base (.request i (node i) d)
  | _ => True

end Step

structure Initial (s : State ι γ) : Prop where
  base : GenSecret.Initial s.base
  queue : s.base.world.queue = []
  answered : ∀ i, s.answered i = false
  pushed : s.pushed = []
  popped : s.popped = []

def key (msg : Message) : Source × Index := (msg.source, msg.index)

/-- Where a message comes from. -/
def Sent (node : ι → ℕ) (s : State ι γ) (msg : Message) : Prop :=
  ∃ i d, dto (s.base.request i) = some d ∧
    (msg = serverMessage (node i) d ∨ msg = clientMessage (node i) d ∧ s.answered i = true)

structure Inv (node : ι → ℕ) (s : State ι γ) : Prop where
  base : Invariant s.base
  queue : s.pushed = s.popped ++ s.base.world.queue.reverse
  sent : ∀ msg ∈ s.pushed, Sent node s msg
  answer : ∀ i d, dto (s.base.request i) = some d → serverMessage (node i) d ∈ s.pushed
  nodup : (s.pushed.map key).Nodup
  held : ∀ g msg pc, s.base.generator g = some (msg, pc) → msg ∈ s.popped
  exclusive : ∀ g g' msg msg' pc pc', s.base.generator g = some (msg, pc) →
    s.base.generator g' = some (msg', pc') → key msg = key msg' → g = g'

variable {node : ι → ℕ} {s t : State ι γ}

theorem Initial.inv (h : Initial s) : Inv node s where
  base := invariant_of_initial h.base
  queue := by rw [h.pushed, h.popped, h.queue]; rfl
  sent msg hmsg := by rw [h.pushed] at hmsg; cases hmsg
  answer i d hd := by rw [h.base.request] at hd; cases hd
  nodup := by rw [h.pushed]; exact List.nodup_nil
  held g msg pc hg := by rw [h.base.generator] at hg; cases hg
  exclusive g g' msg msg' pc pc' hg := by rw [h.base.generator] at hg; cases hg

section Request

variable {nodeId : ℕ} {draw : Draw} {pc : GenSecret.Pc} {w : World} {d : Dto}

theorem holds_of_dto (h : dto pc = some d) : pc.Holds d.index := by
  cases pc with
  | done res =>
    simp only [dto] at h
    split_ifs at h with hcode
    simp only [Pc.Holds, Pc.answer, if_pos hcode, h, Option.map_some]
  | _ => cases h

theorem dto_step (h : dto pc = some d) : dto (pc.step nodeId draw w).1 = some d := by
  cases pc with
  | done res => exact h
  | _ => cases h

theorem request_queue :
    (pc.step nodeId draw w).2.queue = requestPushes nodeId draw pc ++ w.queue := by
  cases pc with
  | set x =>
    simp only [Pc.step, requestPushes]
    split <;> rfl
  | push x =>
    simp only [Pc.step, requestPushes]
    split <;> rfl
  | _ => rfl

/-- A request pushes its message in the step that answers. -/
theorem requestPushes_cases (nodeId : ℕ) (draw : Draw) (pc : GenSecret.Pc) (w : World) :
    (requestPushes nodeId draw pc = [] ∧ dto (pc.step nodeId draw w).1 = dto pc) ∨
    ∃ x, pc = .push x ∧
      requestPushes nodeId draw pc = [serverMessage nodeId ⟨serverNode, draw.randomNum, x⟩] ∧
      dto (pc.step nodeId draw w).1 = some ⟨serverNode, draw.randomNum, x⟩ := by
  cases pc with
  | push x =>
    cases hok : draw.ok with
    | true =>
      right
      refine ⟨x, rfl, ?_, ?_⟩
      · simp only [requestPushes, hok, if_true]
      · simp only [Pc.step, hok, if_true, dto]
    | false =>
      left
      constructor
      · simp [requestPushes, hok]
      · simp [Pc.step, hok, dto]
  | set x =>
    left
    refine ⟨rfl, ?_⟩
    simp only [Pc.step]
    split <;> rfl
  | score x isExist =>
    left
    refine ⟨rfl, ?_⟩
    simp only [Pc.step]
    split <;> rfl
  | _ => exact .inl ⟨rfl, rfl⟩

end Request

/-- A generator takes the oldest message, or keeps the one it holds. -/
theorem generator_cases (s : GenSecret.State ι γ) (g : γ) (o : Generator.Outcome) :
    let r := (s.generator g).step o s.world
    s.world.queue.reverse = generatorPops s g ++ r.2.queue.reverse ∧
      ∀ msg pc, r.1 = some (msg, pc) →
        generatorPops s g = [msg] ∨
          generatorPops s g = [] ∧ ∃ pc', s.generator g = some (msg, pc') := by
  intro r
  cases hp : s.generator g with
  | none =>
    have hr : r = Generator.Process.step o none s.world := by rw [← hp]
    rcases List.eq_nil_or_concat s.world.queue with hq | ⟨queue, last, hq⟩
    · simp [hr, generatorPops, hp, Generator.Process.step, hq]
    · rw [List.concat_eq_append] at hq
      simp [hr, generatorPops, hp, Generator.Process.step, hq]
  | some held =>
    obtain ⟨msg, pc⟩ := held
    have hr : r = Generator.Process.step o (some (msg, pc)) s.world := by rw [← hp]
    have hpops : generatorPops s g = [] := by simp only [generatorPops, hp]
    rw [hpops, hr]
    cases pc with
    | done => exact ⟨rfl, fun msg' pc' h ↦ by cases h⟩
    | _ =>
      refine ⟨rfl, ?_⟩
      intro msg' pc' h
      cases h
      exact .inr ⟨rfl, _, rfl⟩

theorem Sent.mono {msg : Message} (h : Sent node s msg)
    (hdto : ∀ i d, dto (s.base.request i) = some d → dto (t.base.request i) = some d)
    (hanswered : ∀ i, s.answered i = true → t.answered i = true) : Sent node t msg := by
  obtain ⟨i, d, hd, hmsg⟩ := h
  refine ⟨i, d, hdto i d hd, ?_⟩
  rcases hmsg with hmsg | ⟨hmsg, hi⟩
  · exact .inl hmsg
  · exact .inr ⟨hmsg, hanswered i hi⟩

/-- The answer a message of `index` belongs to. -/
theorem Inv.sent_index (hs : Inv node s) {i : ι} {msg : Message} (hmsg : msg ∈ s.pushed)
    (hi : (s.base.request i).Holds msg.index) :
    ∃ d, dto (s.base.request i) = some d ∧
      (msg = serverMessage (node i) d ∨ msg = clientMessage (node i) d ∧ s.answered i = true) := by
  obtain ⟨j, d, hd, hsent⟩ := hs.sent msg hmsg
  have hindex : msg.index = d.index := by
    rcases hsent with rfl | ⟨rfl, -⟩
    · rfl
    · rfl
  obtain rfl : j = i := hs.base.unique j i msg.index (hindex ▸ holds_of_dto hd) hi
  exact ⟨d, hd, hsent⟩

theorem nodup_push {pushed : List Message} {msg : Message} (h : (pushed.map key).Nodup)
    (hnew : ∀ msg' ∈ pushed, key msg' ≠ key msg) : ((pushed ++ [msg]).map key).Nodup := by
  rw [List.map_append, List.nodup_append]
  refine ⟨h, List.nodup_singleton _, ?_⟩
  intro k hk k' hk' heq
  obtain ⟨msg', hmsg', rfl⟩ := List.mem_map.mp hk
  rw [List.map_singleton, List.mem_singleton] at hk'
  exact hnew msg' hmsg' (heq.trans hk')

theorem Inv.request [DecidableEq ι] (hs : Inv node s) (i : ι) (draw : Draw)
    (hfresh : FreshSet s.base (.request i (node i) draw)) :
    let r := (s.base.request i).step (node i) draw s.base.world
    Inv node
      { s with
        base := { s.base with world := r.2, request := Function.update s.base.request i r.1 }
        pushed := s.pushed ++ requestPushes (node i) draw (s.base.request i) } := by
  intro r
  have hdto (j : ι) (d : Dto) (h : dto (s.base.request j) = some d) :
      dto (Function.update s.base.request i r.1 j) = some d := by
    by_cases hj : j = i
    · subst hj
      rw [Function.update_self]
      exact dto_step h
    · rwa [Function.update_of_ne hj]
  have hqueue : r.2.queue =
      requestPushes (node i) draw (s.base.request i) ++ s.base.world.queue := request_queue
  refine ⟨invariant_request hs.base i (node i) draw hfresh, ?_, ?_, ?_, ?_, hs.held, hs.exclusive⟩
  · dsimp only
    rw [hqueue, List.reverse_append, ← List.append_assoc, ← hs.queue]
    rcases requestPushes_cases (node i) draw (s.base.request i) s.base.world with
      ⟨hnil, -⟩ | ⟨x, -, hone, -⟩
    · rw [hnil]
      rfl
    · rw [hone]
      rfl
  · intro msg hmsg
    rcases List.mem_append.mp hmsg with hmsg | hmsg
    · exact (hs.sent msg hmsg).mono hdto fun _ h ↦ h
    · rcases requestPushes_cases (node i) draw (s.base.request i) s.base.world with
        ⟨hnil, -⟩ | ⟨x, -, hone, hd⟩
      · rw [hnil] at hmsg
        cases hmsg
      · rw [hone, List.mem_singleton] at hmsg
        exact ⟨i, _, by simpa using hd, .inl hmsg⟩
  · intro j d hj
    dsimp only at hj ⊢
    rw [List.mem_append]
    by_cases hji : j = i
    · subst hji
      rw [Function.update_self] at hj
      rcases requestPushes_cases (node j) draw (s.base.request j) s.base.world with
        ⟨-, hsame⟩ | ⟨x, -, hone, hd⟩
      · exact .inl (hs.answer j d (hsame ▸ hj))
      · obtain rfl : d = ⟨serverNode, draw.randomNum, x⟩ := by
          simpa using hj.symm.trans hd
        exact .inr (by rw [hone, List.mem_singleton])
    · rw [Function.update_of_ne hji] at hj
      exact .inl (hs.answer j d hj)
  · dsimp only
    rcases requestPushes_cases (node i) draw (s.base.request i) s.base.world with
      ⟨hnil, -⟩ | ⟨x, hpc, hone, -⟩
    · rw [hnil, List.append_nil]
      exact hs.nodup
    · rw [hone]
      refine nodup_push hs.nodup fun msg hmsg heq ↦ ?_
      have hindex : msg.index = x := congrArg Prod.snd heq
      -- The request itself holds `x` and has not answered.
      obtain ⟨d, hd, -⟩ := hs.sent_index hmsg (i := i) (by rw [hpc]; exact hindex.symm)
      rw [hpc] at hd
      cases hd

theorem Inv.client [DecidableEq ι] (hs : Inv node s) {i : ι} {d : Dto}
    (hd : dto (s.base.request i) = some d) (hi : s.answered i = false) :
    Inv node
      { s with
        base := { s.base with
          world := s.base.world.lpush ⟨.client, d.randomNum, d.index, serverNode, node i⟩ }
        answered := Function.update s.answered i true
        pushed := s.pushed ++ [clientMessage (node i) d] } := by
  refine ⟨⟨hs.base.taken, hs.base.published, hs.base.unique⟩, ?_, ?_, ?_, ?_, hs.held,
    hs.exclusive⟩
  · simp only [World.lpush, List.reverse_cons, hs.queue, List.append_assoc]
    rfl
  · intro msg hmsg
    rcases List.mem_append.mp hmsg with hmsg | hmsg
    · refine (hs.sent msg hmsg).mono (fun _ _ h ↦ h) ?_
      intro j hj
      by_cases hji : j = i
      · subst hji
        exact Function.update_self ..
      · simpa [hji] using hj
    · rw [List.mem_singleton] at hmsg
      exact ⟨i, d, hd, .inr ⟨hmsg, Function.update_self ..⟩⟩
  · intro j d' hj
    exact List.mem_append_left _ (hs.answer j d' hj)
  · refine nodup_push hs.nodup fun msg hmsg heq ↦ ?_
    have hsource : msg.source = .client := congrArg Prod.fst heq
    have hindex : msg.index = d.index := congrArg Prod.snd heq
    obtain ⟨d', -, rfl | ⟨-, hi'⟩⟩ := hs.sent_index hmsg (i := i) (hindex ▸ holds_of_dto hd)
    · cases hsource
    · rw [hi] at hi'
      cases hi'

theorem Inv.generator [DecidableEq γ] (hs : Inv node s) (g : γ) (o : Generator.Outcome) :
    let r := (s.base.generator g).step o s.base.world
    Inv node
      { s with
        base := { s.base with world := r.2, generator := Function.update s.base.generator g r.1 }
        popped := s.popped ++ generatorPops s.base g } := by
  intro r
  obtain ⟨hqueue, hhold⟩ := generator_cases s.base g o
  have hpushed : s.pushed = (s.popped ++ generatorPops s.base g) ++ r.2.queue.reverse := by
    rw [hs.queue, hqueue, List.append_assoc]
  have hnodup : ((s.popped ++ generatorPops s.base g).map key).Nodup := by
    have := hs.nodup
    rw [hpushed, List.map_append] at this
    exact (List.nodup_append.mp this).1
  -- What another generator holds was taken before.
  have hother {g' : γ} {msg msg' : Message} {pc pc' : Generator.Pc} (hg : g' ≠ g)
      (hr : r.1 = some (msg, pc)) (hg' : s.base.generator g' = some (msg', pc'))
      (hkey : key msg = key msg') : False := by
    rcases hhold msg pc hr with hpop | ⟨-, pc₀, hheld⟩
    · rw [hpop, List.map_append, List.nodup_append] at hnodup
      exact hnodup.2.2 (key msg') (List.mem_map_of_mem (hs.held g' msg' pc' hg')) (key msg)
        (by simp) hkey.symm
    · exact hg (hs.exclusive g' g msg' msg pc' pc₀ hg' hheld hkey.symm)
  refine ⟨invariant_generator hs.base g o, hpushed, ?_, hs.answer, hs.nodup, ?_, ?_⟩
  · intro msg hmsg
    exact (hs.sent msg hmsg).mono (fun _ _ h ↦ h) fun _ h ↦ h
  · intro g' msg pc hg'
    dsimp only at hg' ⊢
    rw [List.mem_append]
    by_cases hg : g' = g
    · subst hg
      rw [Function.update_self] at hg'
      rcases hhold msg pc hg' with hpop | ⟨-, pc', hheld⟩
      · exact .inr (by rw [hpop, List.mem_singleton])
      · exact .inl (hs.held g' msg pc' hheld)
    · rw [Function.update_of_ne hg] at hg'
      exact .inl (hs.held g' msg pc hg')
  · intro g₁ g₂ msg₁ msg₂ pc₁ pc₂ h₁ h₂ hkey
    dsimp only at h₁ h₂
    by_cases hg₁ : g₁ = g
    · by_cases hg₂ : g₂ = g
      · rw [hg₁, hg₂]
      · rw [hg₁, Function.update_self] at h₁
        rw [Function.update_of_ne hg₂] at h₂
        exact (hother hg₂ h₁ h₂ hkey).elim
    · rw [Function.update_of_ne hg₁] at h₁
      by_cases hg₂ : g₂ = g
      · rw [hg₂, Function.update_self] at h₂
        exact (hother hg₁ h₂ h₁ hkey.symm).elim
      · rw [Function.update_of_ne hg₂] at h₂
        exact hs.exclusive g₁ g₂ msg₁ msg₂ pc₁ pc₂ h₁ h₂ hkey

section Runs

variable [DecidableEq ι] [DecidableEq γ]

theorem Inv.step {a : Act ι γ} (hs : Inv node s) (hfresh : Fresh node s a)
    (h : s.step node a = some t) : Inv node t := by
  cases a with
  | request i draw =>
    cases h
    exact hs.request i draw hfresh
  | client i ok =>
    simp only [State.step] at h
    split at h
    · cases h
    · next d hd =>
      split_ifs at h with hi hok
      · cases h
        exact hs.client hd (by simpa using hi)
      · cases h
        refine { hs with sent := fun msg hmsg ↦ (hs.sent msg hmsg).mono (fun _ _ h ↦ h) ?_ }
        intro j hj
        by_cases hji : j = i
        · subst hji
          exact Function.update_self ..
        · simpa [hji] using hj
  | generator g o =>
    cases h
    exact hs.generator g o

/-- In a run whose every `set` finds the candidate still free, the queue loses and repeats no
message, no two messages have one source and one index, the two messages of an index agree on
the number and the nodes, and no two generators hold one. -/
theorem exchange_paired (hinit : Initial s) (hrun : Reachable (State.step node) (Fresh node) s t) :
    t.pushed = t.popped ++ t.base.world.queue.reverse ∧
      (t.pushed.map key).Nodup ∧
      (∀ i d, dto (t.base.request i) = some d → serverMessage (node i) d ∈ t.pushed) ∧
      (∀ msg ∈ t.pushed, ∀ msg' ∈ t.pushed, msg.index = msg'.index →
        msg.randomNum = msg'.randomNum ∧ msg.serverNodeId = msg'.serverNodeId ∧
          msg.clientNodeId = msg'.clientNodeId) ∧
      (∀ g msg pc, t.base.generator g = some (msg, pc) → msg ∈ t.popped) ∧
      ∀ g g' msg msg' pc pc', t.base.generator g = some (msg, pc) →
        t.base.generator g' = some (msg', pc') → key msg = key msg' → g = g' := by
  have hinv : Inv node t := hrun.invariant hinit.inv fun _ _ _ hs hfresh h ↦ hs.step hfresh h
  refine ⟨hinv.queue, hinv.nodup, hinv.answer, ?_, hinv.held, hinv.exclusive⟩
  intro msg hmsg msg' hmsg' hindex
  obtain ⟨i, d, hd, hsent⟩ := hinv.sent msg hmsg
  have hi : (t.base.request i).Holds msg'.index := by
    have hmsgIndex : msg.index = d.index := by
      rcases hsent with rfl | ⟨rfl, -⟩
      · rfl
      · rfl
    exact hindex ▸ hmsgIndex ▸ holds_of_dto hd
  obtain ⟨d', hd', hsent'⟩ := hinv.sent_index hmsg' hi
  obtain rfl : d = d' := by
    rw [hd] at hd'
    cases hd'
    rfl
  rcases hsent with rfl | ⟨rfl, -⟩
  · rcases hsent' with rfl | ⟨rfl, -⟩
    · exact ⟨rfl, rfl, rfl⟩
    · exact ⟨rfl, rfl, rfl⟩
  · rcases hsent' with rfl | ⟨rfl, -⟩
    · exact ⟨rfl, rfl, rfl⟩
    · exact ⟨rfl, rfl, rfl⟩

end Runs

def State.start : State (Fin 2) (Fin 1) := ⟨GenSecret.State.start, fun _ ↦ false, [], []⟩

def serve (randomStr : Utils.Str) : Act (Fin 2) (Fin 1) := .request 0 ⟨randomStr, 7, true⟩

/-- One exchange: the server's message is taken and the client's waits. -/
theorem exchange_paired_release :
    ∃ t : State (Fin 2) (Fin 1), t.pushed = t.popped ++ t.base.world.queue.reverse ∧
      t.pushed = [⟨.server, 7, ['a'], 0, 1⟩, ⟨.client, 7, ['a'], 0, 1⟩] ∧
      t.popped = [⟨.server, 7, ['a'], 0, 1⟩] := by
  have hrun : Reachable (State.step fun _ ↦ 1) (Fresh fun _ ↦ 1) State.start State.start := .start
  have hrun := hrun.next (a := serve ['a']) trivial rfl
  have hrun := hrun.next (a := serve ['a']) trivial rfl
  have hrun := hrun.next (a := serve ['a']) trivial rfl
  have hrun := hrun.next (a := serve ['a']) ⟨rfl, rfl⟩ rfl
  have hrun := hrun.next (a := serve ['a']) trivial rfl
  have hrun := hrun.next (a := Act.client 0 true) trivial rfl
  have hrun := hrun.next (a := Act.generator 0 ⟨none, none, 0⟩) trivial rfl
  have hinit : Initial State.start :=
    ⟨⟨fun _ ↦ rfl, fun _ ↦ rfl⟩, rfl, fun _ ↦ rfl, rfl, rfl⟩
  exact ⟨_, (exchange_paired hinit hrun).1, rfl, rfl⟩

end ShannonNet.Server.Exchange
