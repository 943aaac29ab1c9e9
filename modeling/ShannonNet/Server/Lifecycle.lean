import ShannonNet.Server.Sequence

namespace ShannonNet.Server.Sequence

open Library.Bitset Library.Buffer Library.Runs InitSecrets Utils Generator

variable {cfg : Config} {γ : Type} [DecidableEq γ]

section Slots

/-- A rule for facts about the slot of every index: what a request and a generator step must
keep. -/
theorem step_slots {I : Index → Slot → Prop} {s t : State γ} {a : Act cfg γ}
    (hI : ∀ x, I x (s.world.slot x)) (h : s.step a = some t)
    (hrequest : ∀ f req x slot, a = .request f req → Touch f req x (s.world.slot x) slot →
      I x slot)
    (hgenerator : ∀ g o msg pc, a = .generator g o → s.generator g = some (msg, pc) →
      I msg.index (pc.step msg.source o (s.world.slot msg.index)).2) :
    ∀ x, I x (t.world.slot x) := by
  intro x
  cases a with
  | request f req =>
    cases h
    exact hrequest f req x _ rfl (handle_touch f s.world req x)
  | generator g o =>
    cases h
    rcases process_slot o (s.generator g) s.world x with hsame | ⟨msg, pc, hg, rfl, hstep⟩
    · dsimp only
      rw [hsame]
      exact hI x
    · dsimp only
      rw [hstep]
      exact hgenerator g o msg pc rfl hg
  | clientPush randomNum index clientNodeId =>
    cases h
    exact hI x

end Slots

section Valid

/-- Every node with the score of a valid secret has the file. -/
def Backed (slot : Slot) : Prop :=
  ∀ nodeId, slot.valid nodeId = some nodeSecretValid → slot.secret (.server, nodeId) ≠ none

def ValidExists (w : World) : Prop := ∀ x, Backed (w.slot x)

/-- A valid report that is accepted comes after the move of the file. -/
def AfterMove (s : State γ) : Act cfg γ → Prop
  | .request f (.resultReport body) =>
    let slot := s.world.slot (indexOf body.indexArg)
    body.Passes f → isValidOf body.isValidArg = nodeSecretValid → slot.time .server ≠ none →
      slot.secret (.server, nodeIdOf body.nodeIdArg) ≠ none
  | _ => True

theorem Backed.grows {slot t : Slot} (h : Backed slot) (ht : Grows slot t) : Backed t := by
  intro nodeId hvalid hnone
  refine h nodeId ?_ (ht.secret _ hnone)
  rcases ht.valid nodeId with heq | hinvalid
  · rwa [← heq]
  · rw [hinvalid] at hvalid
    exact absurd (Option.some.inj hvalid) (by decide)

theorem Backed.invalid {slot : Slot} (h : Backed slot) {nodeId : ℕ}
    {secret : Source × ℕ → Option Bytes}
    (hsecret : ∀ key, key ≠ (.server, nodeId) → secret key = slot.secret key) :
    Backed { slot with
      valid := Function.update slot.valid nodeId (some nodeSecretInvalid)
      secret := secret } := by
  intro n hn
  dsimp only at hn ⊢
  by_cases hnode : n = nodeId
  · subst hnode
    rw [Function.update_self] at hn
    exact absurd (Option.some.inj hn) (by decide)
  · rw [Function.update_of_ne hnode] at hn
    rw [hsecret _ fun heq ↦ hnode (Prod.mk.inj heq).2]
    exact h n hn

theorem Backed.resultReport {f : Faults} {nodeId isValid : ℕ} {slot : Slot} (h : Backed slot)
    (hfile : isValid = nodeSecretValid → slot.time .server ≠ none →
      slot.secret (.server, nodeId) ≠ none) :
    Backed (resultReportSlot f nodeId isValid slot).2 := by
  rw [resultReportSlot]
  split
  · exact h
  split
  · exact h
  next htime =>
  split
  · next hvalid =>
    have hbacked : Backed { slot with
        valid := Function.update slot.valid nodeId (some nodeSecretValid) } := by
      intro n hn
      dsimp only at hn ⊢
      by_cases hnode : n = nodeId
      · subst hnode
        exact hfile hvalid htime
      · rw [Function.update_of_ne hnode] at hn
        exact h n hn
    exact Faults.write_state h hbacked fun _ ↦ hbacked
  · refine Faults.write_state h (h.invalid fun _ _ ↦ rfl) fun _ ↦ ?_
    split_ifs
    · exact h.invalid fun _ _ ↦ rfl
    · exact h.invalid fun _ _ ↦ rfl
    · exact h.invalid fun key hkey ↦ Function.update_of_ne hkey _ _

theorem Backed.getData {f : Faults} {r : GetData.Request cfg} {slot : Slot} (h : Backed slot) :
    Backed (getDataSlot f r slot).2 := by
  by_cases hpulls : Pulls f r slot
  · exact h.grows (getDataSlot_grows hpulls)
  · rwa [(getDataSlot_refuses hpulls).1]

theorem backed_step {s t : State γ} {a : Act cfg γ} (hI : ∀ x, Backed (s.world.slot x))
    (ha : AfterMove s a) (h : s.step a = some t) : ∀ x, Backed (t.world.slot x) := by
  apply step_slots hI h
  · rintro f req x slot rfl htouch
    cases htouch with
    | same => exact hI x
    | lock lock => exact hI x
    | getData hreq hx hpass => exact (hI x).getData
    | report hreq hx hpass =>
      subst hreq hx
      exact (hI _).resultReport (ha hpass)
  · intro g o msg pc _ _ n hn
    obtain ⟨hvalid, hsecret, -⟩ := pc_step_frame msg.source o pc (s.world.slot msg.index)
    rw [hvalid] at hn
    rw [hsecret]
    exact hI _ n hn

theorem initWorld_backed (timeStamp : ℕ) (secret : Index → Bytes) (x : Index) :
    Backed ((initWorld timeStamp secret).slot x) := by
  intro nodeId hvalid
  simp only [initWorld, initSlot] at hvalid ⊢
  split_ifs at hvalid ⊢ with hx
  · dsimp only at hvalid ⊢
    split_ifs at hvalid ⊢
    exact Option.some_ne_none _
  · cases hvalid

/-- In a run whose valid reports come after the move, every valid index has its file. -/
theorem valid_exists {timeStamp : ℕ} {secret : Index → Bytes} {t : State γ}
    (hrun : Reachable State.step (AfterMove : State γ → Act cfg γ → Prop)
      (State.start γ timeStamp secret) t) : ValidExists t.world := by
  apply hrun.invariant (I := fun s ↦ ∀ x, Backed (s.world.slot x))
  · exact initWorld_backed timeStamp secret
  · intro s a t hI ha h
    exact backed_step hI ha h

theorem valid_exists_reported :
    let w := initWorld 1 fun _ ↦ exampleSecret
    ValidExists (handle (Faults.success Config.release) w (report "secret_1".toList 1)).2 := by
  apply valid_exists (Reachable.next (s := State.start Unit 1 fun _ ↦ exampleSecret)
    (a := .request (Faults.success Config.release) (report "secret_1".toList 1)) .start ?_ rfl)
  intro _ _ _
  decide

/-- The node of a secret that is still waiting reports it valid. -/
theorem waiting_valid : ∃ t : State Unit,
    Reachable State.step (fun _ (_ : Act Config.release Unit) ↦ True)
      (State.start Unit 1 fun _ ↦ []) t ∧ ¬ValidExists t.world := by
  obtain ⟨t, ht, hslot, -⟩ := generating_reaches fun _ ↦ []
  refine ⟨_, .next (a := .request (Faults.success Config.release) (report exampleIndex 1))
    (.of_exec ht) trivial rfl, ?_⟩
  intro h
  have hbacked := h exampleIndex
  rw [handle_report_generated hslot, World.setSlot_slot, if_pos rfl] at hbacked
  exact hbacked 1 rfl rfl

end Valid

section Invalid

/-- Neither copy of the secret is left. -/
def Dead (nodeId : ℕ) (slot : Slot) : Prop :=
  slot.waiting = none ∧ slot.secret (.server, nodeId) = none

/-- What an invalid report promises about its node and index from then on. -/
def Rejected (cfg : Config) (w : World) (nodeId : ℕ) (x : Index) : Prop :=
  Dead nodeId (w.slot x) ∧ ∀ (f : Faults) (body : GetDataPostDto) (coins : ℕ → Coins cfg),
    nodeIdOf body.nodeIdArg = nodeId → indexOf body.indexArg = x →
      (handle f w (.getData body coins)).1 ≠ some 200

theorem Dead.rejected {w : World} {nodeId : ℕ} {x : Index} (h : Dead nodeId (w.slot x)) :
    Rejected cfg w nodeId x := by
  refine ⟨h, ?_⟩
  rintro f body coins rfl rfl
  by_cases hpass : body.Passes f
  · have hpulls : ¬Pulls f (body.request hpass coins) (w.slot (indexOf body.indexArg)) :=
      fun hpulls ↦ hpulls.waiting h.1
    obtain ⟨-, code, hcode, hne⟩ := getDataSlot_refuses hpulls
    rw [handle, getData_answers hpass]
    dsimp only
    rw [hcode]
    exact fun heq ↦ hne (Option.some.inj heq)
  · simp [handle, getData_aborts hpass, Result.status]

/-- Only generated indices have secrets, and what was reported invalid is dead. -/
def Buried (reported : List (ℕ × Index)) (x : Index) (slot : Slot) : Prop :=
  (∀ nodeId, slot.secret (.server, nodeId) ≠ none → (slot.time .server).isSome) ∧
    ∀ nodeId, (nodeId, x) ∈ reported → Dead nodeId slot

theorem Buried.mono {reported : List (ℕ × Index)} {x : Index} {slot slot' : Slot}
    (h : Buried reported x slot) (htime : (slot.time .server).isSome → (slot'.time .server).isSome)
    (hsecret : ∀ nodeId, slot'.secret (.server, nodeId) ≠ none →
      slot.secret (.server, nodeId) ≠ none)
    (hwaiting : (∃ nodeId, (nodeId, x) ∈ reported) → slot'.waiting = slot.waiting) :
    Buried reported x slot' := by
  refine ⟨fun nodeId hn ↦ htime (h.1 nodeId (hsecret nodeId hn)), ?_⟩
  intro nodeId hmem
  obtain ⟨hw, hs⟩ := h.2 nodeId hmem
  refine ⟨(hwaiting ⟨nodeId, hmem⟩).trans hw, ?_⟩
  by_contra hn
  exact hsecret nodeId hn hs

/-- What a `resultReport` keeps of a slot. -/
structure Reported (s t : Slot) : Prop where
  time : t.time = s.time
  waiting : t.waiting = s.waiting
  secret : ∀ key, t.secret key ≠ none → s.secret key ≠ none

theorem Buried.getData {reported : List (ℕ × Index)} {x : Index} {slot : Slot} {f : Faults}
    {r : GetData.Request cfg} (h : Buried reported x slot) :
    Buried reported x (getDataSlot f r slot).2 := by
  by_cases hpulls : Pulls f r slot
  · refine ⟨fun nodeId _ ↦ ?_, fun nodeId hmem ↦ absurd (h.2 nodeId hmem).1 hpulls.waiting⟩
    rw [(getDataSlot_grows hpulls).time]
    exact Option.isSome_iff_ne_none.mpr hpulls.time
  · rwa [(getDataSlot_refuses hpulls).1]

end Invalid

end ShannonNet.Server.Sequence
