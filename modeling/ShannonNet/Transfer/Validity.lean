import ShannonNet.InitSecrets
import ShannonNet.Transfer.Generation
import ShannonNet.Transfer.Lossless

namespace ShannonNet.Transfer

open Library.Runs Library.Bitset Library.Buffer Client InitSecrets Server Utils

variable {cfg : Config} {env : Env cfg} {index : Index} {s t : State cfg}

/-- What `init` leaves: its secrets, and no other index. -/
def init (env : Env cfg) (timeStamp : ℕ) (file : Index → Bytes) (index : Index) : State cfg :=
  (State.fresh cfg).withSlot (initSlot env.clientNode timeStamp file index)

theorem init_of_not {timeStamp : ℕ} {file : Index → Bytes}
    (h : initSecrets.contains index = false) : init env timeStamp file index = .fresh cfg := by
  rw [init, initSlot, h]
  rfl

def SameSecret (node : ℕ) (s : State cfg) : Prop :=
  s.slot.valid node = some nodeSecretValid → ∃ file,
    s.slot.secret (.server, node) = some file ∧ s.slot.secret (.client, node) = some file

/-- A VALID secret is the file of the server, and that of the client once `gather` wrote it. -/
def Agreement (node : ℕ) (s : State cfg) : Prop :=
  s.slot.valid node = some nodeSecretValid → ∃ file, s.slot.secret (.server, node) = some file ∧
    (s.slot.secret (.client, node) = some file ∨
      ∃ progress loc, s.client = .gather progress loc ∧ Saving loc)

def Stalled : ClientRun → Prop
  | .pull .serverTime none => True
  | .pull (.clientTime _) none => True
  | .pull .runningExists none => True
  | _ => False

/-- An index of `init`: there is no running key, so nothing is ever pulled. -/
structure Seeded (env : Env cfg) (s : State cfg) : Prop where
  process : ∀ p, s.process p = .idle
  time : ∀ source, (s.slot.time source).isSome
  running : s.slot.running .client = none
  file : ∃ file, ∀ source, s.slot.secret (source, env.clientNode) = some file
  generator : ∀ source, s.generator source = .createTime ∨ s.generator source = .done
  client : Stalled s.client

inductive Phase (env : Env cfg) (index : Index) (s : State cfg) : Prop
  | seeded (h : Seeded env s)
  | quiet (h : Quiet env s) (hnone : ∃ source, s.slot.time source = none)
  | transfer {created : Source → Option ℕ} {K : Bytes} (W : WaitingSecret cfg env.crc32c)
      (h : Invariant env index created K W.bytes s)

theorem Phase.agreement (h : Phase env index s) : Agreement env.clientNode s := by
  intro hvalid
  cases h with
  | seeded h =>
    obtain ⟨file, hfile⟩ := h.file
    exact ⟨file, hfile .server, .inl (hfile .client)⟩
  | quiet h =>
    rw [h.valid] at hvalid
    cases hvalid
  | transfer W h =>
    have hclient := h.client
    cases hc : s.client with
    | pull loop secretA =>
      rw [hc] at hclient
      exact absurd hvalid hclient.unreported.1
    | gather progress loc =>
      rw [hc] at hclient
      refine ⟨W.bytes, (h.serving.finished hclient.request).1, ?_⟩
      exact (hclient.gather.reported hvalid).imp id fun hsaving ↦ ⟨progress, loc, rfl, hsaving⟩

theorem idle_step {p : Fin cfg.progress} (hp : s.process p = .idle) :
    s.step env index (.request p) = none ∧ s.step env index (.process p) = none := by
  refine ⟨by rw [State.step, hp], ?_⟩
  rw [State.step, hp]
  rfl

/-- A client without the tensor of `Decrypt` only reads. -/
theorem stalled_client (hs : Stalled s.client) (h : s.step env index .client = some t) :
    ∃ loop loop', s.client = .pull loop none ∧ loop.step cfg s.slot = some (loop', s.slot, none) ∧
      t = { s.withSlot s.slot with client := .pull loop' none } := by
  cases State.stepClient_cases env h with
  | construct hc =>
    rw [hc] at hs
    exact hs.elim
  | @finish progress secretA hc =>
    rw [hc] at hs
    cases secretA <;> exact hs.elim
  | gather hc =>
    rw [hc] at hs
    exact hs.elim
  | @pull loop loop' secretA slot piece t hc hloop hstep ht =>
    rw [hc] at hs
    cases secretA with
    | some running => cases loop <;> exact hs.elim
    | none =>
      rcases Pull.step_cases hstep with ⟨-, rfl, rfl⟩ | ⟨hpull, -⟩
      · cases ht
        exact ⟨loop, loop', hc, hstep, rfl⟩
      · exact absurd rfl (hloop hpull)

theorem Polling.stalled {slot : Slot} {c : ClientRun} (h : Polling slot c) : Stalled c := by
  cases c with
  | gather progress loc => exact h.elim
  | pull loop secretA =>
    cases loop with
    | serverTime => cases secretA <;> exact h
    | clientTime serverCreateTime =>
      cases secretA with
      | none => trivial
      | some running => exact h.elim
    | _ => exact h.elim

theorem quiet_client (hs : Quiet env s) (hnone : ∃ source, s.slot.time source = none)
    (h : s.step env index .client = some t) : Quiet env t ∧ t.slot = s.slot := by
  have hpolling := hs.client
  obtain ⟨loop, loop', hc, hstep, rfl⟩ := stalled_client hpolling.stalled h
  rw [hc] at hpolling
  have hquiet (hc : Polling s.slot (.pull loop' none)) :
      Quiet env { s.withSlot s.slot with client := .pull loop' none } :=
    ⟨⟨hs.request, hs.counted, hs.entered, hs.process, hc, hs.count, hs.piece, hs.secret, hs.valid⟩,
      hs.same, hs.generator⟩
  refine ⟨hquiet ?_, rfl⟩
  cases loop with
  | serverTime =>
    cases hstep
    intro hne
    cases htime : s.slot.time .server with
    | none => exact absurd (by rw [htime]; rfl) hne
    | some createTime => rfl
  | clientTime serverCreateTime =>
    have hzero : ¬(serverCreateTime ≠ 0 ∧ (s.slot.time .client).getD 0 ≠ 0) := by
      rintro ⟨hserver, hclient⟩
      have hsome := hpolling hserver
      obtain ⟨source, hsource⟩ := hnone
      cases source with
      | server =>
        rw [hsource] at hsome
        cases hsome
      | client =>
        rw [hsource] at hclient
        exact hclient rfl
    rw [Pull.step, if_neg hzero] at hstep
    cases hstep
    trivial
  | _ => exact hpolling.elim

theorem Seeded.step {a : Act cfg} (hs : Seeded env s) (h : s.step env index a = some t) :
    Seeded env t := by
  cases a with
  | generator source o =>
    rw [State.step] at h
    split_ifs at h with hdone
    rw [(hs.generator source).resolve_right hdone, Generator.Pc.step, if_pos (hs.time source)] at h
    cases h
    refine ⟨hs.process, hs.time, hs.running, hs.file, ?_, hs.client⟩
    intro src
    by_cases hsrc : src = source
    · exact .inr (by simp [hsrc])
    · simpa [hsrc] using hs.generator src
  | request p =>
    rw [(idle_step (hs.process p)).1] at h
    cases h
  | process p =>
    rw [(idle_step (hs.process p)).2] at h
    cases h
  | client =>
    have hstalled := hs.client
    obtain ⟨loop, loop', hc, hstep, rfl⟩ := stalled_client hstalled h
    rw [hc] at hstalled
    refine ⟨hs.process, hs.time, hs.running, hs.file, hs.generator, ?_⟩
    cases loop with
    | serverTime =>
      cases hstep
      trivial
    | clientTime serverCreateTime =>
      cases hstep
      dsimp only
      split_ifs <;> trivial
    | runningExists =>
      rw [Pull.step, hs.running] at hstep
      cases hstep
      trivial
    | _ => exact hstalled.elim

theorem Phase.step {a : Act cfg} (hs : Phase env index s) (hreg : Regular env s a)
    (h : s.step env index a = some t) : Phase env index t := by
  cases hs with
  | seeded hs => exact .seeded (hs.step h)
  | transfer W hs => exact .transfer W (invariant_step hs hreg.freshCount h)
  | quiet hs hnone =>
    cases a with
    | generator source o =>
      have ht := quiet_generator hs hreg h
      by_cases hnone' : ∃ source, t.slot.time source = none
      · exact .quiet ht hnone'
      · obtain ⟨K, W, hinv⟩ := ht.invariant index fun source ↦
          Option.isSome_iff_ne_none.mpr fun htime ↦ hnone' ⟨source, htime⟩
        exact .transfer W hinv
    | client =>
      obtain ⟨ht, hslot⟩ := quiet_client hs hnone h
      exact .quiet ht (by rwa [hslot])
    | request p =>
      rw [(idle_step (hs.process p)).1] at h
      cases h
    | process p =>
      rw [(idle_step (hs.process p)).2] at h
      cases h

theorem init_phase (timeStamp : ℕ) (file : Index → Bytes) (index : Index) :
    Phase env index (init env timeStamp file index) := by
  cases h : initSecrets.contains index with
  | true =>
    rw [init, initSlot, if_pos h]
    exact .seeded ⟨fun _ ↦ rfl, fun _ ↦ rfl, rfl, ⟨file index, fun _ ↦ if_pos rfl⟩,
      fun _ ↦ .inl rfl, trivial⟩
  | false =>
    rw [init_of_not h]
    exact .quiet (State.fresh_quiet env) ⟨.server, rfl⟩

section Window

variable {K : Bytes} {created : Source → Option ℕ} {W : WaitingSecret cfg env.crc32c}

theorem step_copy {a : Act cfg} (hs : Invariant env index created K W.bytes s)
    (ha : IsTransfer a) (h : s.step env index a = some t) :
    t.slot.secret (.client, env.clientNode) = s.slot.secret (.client, env.clientNode) ∨
      s.slot.valid env.clientNode = some nodeSecretValid := by
  cases a with
  | generator source o => exact ha.elim
  | request p =>
    cases hp : s.process p with
    | sent =>
      rw [State.step, hp] at h
      obtain ⟨pool, hpool, rfl⟩ := Option.map_eq_some_iff.mp h
      obtain ⟨pc, slot, hpc, rfl⟩ := Pool.step_cases _ _ hpool
      exact .inl ((GetData.Pc.step_preserved hpc).secret _)
    | _ =>
      rw [State.step, hp] at h
      cases h
  | process p =>
    obtain ⟨⟨pr, slot⟩, hstep, rfl⟩ := Option.map_eq_some_iff.mp h
    obtain ⟨file, rfl⟩ := Process.step_slot hstep
    exact .inl rfl
  | client =>
    have hclient := hs.client
    cases State.stepClient_cases env h with
    | construct => exact .inl rfl
    | finish => exact .inl rfl
    | pull hc hloop hstep ht =>
      left
      rw [State.slot, State.handOut_pool ht]
      rcases Pull.step_cases hstep with ⟨-, rfl, -⟩ | ⟨-, rfl, -⟩ <;> rfl
    | gather hc hstep =>
      rw [hc] at hclient
      obtain rfl := hclient.progress_eq
      exact (gather_step W hclient.gather hs.serving.time env.dir_clientNode hstep).2.copy

theorem exists_window (index : Index) (hs : Published env K W.bytes s) :
    ∃ t, Reachable (State.step env index) (fun _ a ↦ IsTransfer a) s t ∧
      t.slot.valid env.clientNode = some nodeSecretValid ∧
      t.slot.secret (.client, env.clientNode) = none := by
  obtain ⟨u, hrun, hstuck⟩ := exists_stuck live_step s hs.live
  have hlive {v : State cfg} (hrun : Reachable (State.step env index)
    (fun _ a ↦ IsTransfer a) s v) :
      Live env index s.slot.time K W.bytes v :=
    hrun.invariant hs.live fun _ _ _ hv _ h ↦ (live_step _ _ _ hv h).1
  have hcopy := (complete_of_stuck (hlive hrun).toInvariant hstuck).copy
  obtain ⟨v, a, w, hv, ha, hstep, hnone, hsome⟩ := hrun.exists_step
    (Q := fun s ↦ s.slot.secret (.client, env.clientNode) ≠ none) (not_not.mpr (hs.secret .client))
    (by simp [hcopy])
  refine ⟨v, hv, ?_, not_not.mp hnone⟩
  refine (step_copy (hlive hv).toInvariant ha hstep).resolve_left fun heq ↦ hsome ?_
  rw [heq]
  exact not_not.mp hnone

end Window

def exampleIndex : Index := "3N7AOlmutc2662w6".toList

def releaseInit : Index → State Config.release :=
  init releaseEnv 1700000000 fun _ ↦ releaseSecret.bytes

theorem reachable_of_transfer {s t : State Config.release}
    (hs : Reachable (State.step releaseEnv exampleIndex) (Regular releaseEnv) (.fresh _) s)
    (ht : Reachable (State.step releaseEnv exampleIndex) (fun _ a ↦ IsTransfer a) s t) :
    Reachable (product (State.step releaseEnv))
      (fun s a ↦ Regular releaseEnv (s a.1) a.2) releaseInit
      (Function.update releaseInit exampleIndex t) := by
  have hfresh : releaseInit exampleIndex = .fresh _ := init_of_not (by decide)
  have ht := hs.trans (ht.mono fun _ a ha ↦ by
    cases a with
    | generator source o => exact ha.elim
    | _ => trivial)
  rw [← hfresh] at ht
  exact ht.of_component

/-- From `init`, over every interleaving of all indices. -/
theorem valid_agrees (env : Env cfg) {timeStamp : ℕ} {file : Index → Bytes} {t : Index → State cfg}
    (hrun : Reachable (product (State.step env)) (fun s a ↦ Regular env (s a.1) a.2)
      (init env timeStamp file) t) (index : Index) : Agreement env.clientNode (t index) :=
  ((hrun.component index).invariant (init_phase timeStamp file index)
    fun _ _ _ hs hreg h ↦ hs.step hreg h).agreement

theorem valid_agrees_release : ∃ t : Index → State Config.release,
    Agreement releaseEnv.clientNode (t exampleIndex) ∧
    Complete releaseEnv releaseSecret.bytes (t exampleIndex) := by
  obtain ⟨s, hs, hinit⟩ := exists_published releaseEnv exampleIndex releaseKey releaseSecret
  obtain ⟨t, ht, hstuck⟩ := exists_stuck live_step s hinit.live
  have hlive := ht.invariant hinit.live fun _ _ _ hv _ h ↦ (live_step _ _ _ hv h).1
  refine ⟨_, valid_agrees releaseEnv (reachable_of_transfer hs ht) exampleIndex, ?_⟩
  rw [Function.update_self]
  exact complete_of_stuck hlive.toInvariant hstuck

/-- In the middle of the success path of `gather` the client has no file. -/
theorem valid_before_write :
    ∃ t, Reachable (product (State.step releaseEnv)) (fun s a ↦ Regular releaseEnv (s a.1) a.2)
        releaseInit t ∧
      (t exampleIndex).slot.secret (.client, releaseEnv.clientNode) = none ∧
      ¬SameSecret releaseEnv.clientNode (t exampleIndex) := by
  obtain ⟨s, hs, hinit⟩ := exists_published releaseEnv exampleIndex releaseKey releaseSecret
  obtain ⟨t, ht, hvalid, hnone⟩ := exists_window exampleIndex hinit
  refine ⟨_, reachable_of_transfer hs ht, ?_, ?_⟩
  · rwa [Function.update_self]
  · intro hsame
    rw [Function.update_self] at hsame
    obtain ⟨file, -, hfile⟩ := hsame hvalid
    exact absurd (hnone.symm.trans hfile) (by simp)

end ShannonNet.Transfer
