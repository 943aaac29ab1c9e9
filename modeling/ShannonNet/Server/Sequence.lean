import ShannonNet.InitSecrets
import ShannonNet.Server.Handlers

namespace ShannonNet.Server.Sequence

open Library.Bitset Library.Buffer Library.Runs InitSecrets Utils Generator

variable {cfg : Config} {γ : Type}

def initWorld (timeStamp : ℕ) (secret : Index → Bytes) : World :=
  ⟨initSlot clientNode.toNat timeStamp secret, []⟩

/-- The server between two requests, the generators in the middle of their iterations, and the
nodes and indices whose reports of another value than valid were processed. -/
structure State (γ : Type) where
  world : World
  generator : γ → Process
  reported : List (ℕ × Index)

def State.start (γ : Type) (timeStamp : ℕ) (secret : Index → Bytes) : State γ :=
  ⟨initWorld timeStamp secret, fun _ ↦ none, []⟩

inductive Act (cfg : Config) (γ : Type)
  | request (f : Faults) (req : Post cfg)
  | generator (g : γ) (o : Outcome)
  | clientPush (randomNum : ℕ) (index : Index) (clientNodeId : ℕ)

/-- The node and the index of a report of another value than valid that is not aborted. -/
def invalidReport (f : Faults) : Post cfg → List (ℕ × Index)
  | .resultReport body =>
    if body.Passes f ∧ isValidOf body.isValidArg ≠ nodeSecretValid then
      [(nodeIdOf body.nodeIdArg, indexOf body.indexArg)]
    else []
  | _ => []

def State.step [DecidableEq γ] (s : State γ) : Act cfg γ → Option (State γ)
  | .request f req =>
    some { s with
      world := (handle f s.world req).2
      reported := invalidReport f req ++ s.reported }
  | .generator g o =>
    let r := (s.generator g).step o s.world
    some { s with world := r.2, generator := Function.update s.generator g r.1 }
  | .clientPush randomNum index clientNodeId =>
    some { s with world := s.world.lpush ⟨.client, randomNum, index, serverNode, clientNodeId⟩ }

/-- What one request can do to the slot of an index. -/
inductive Touch (f : Faults) (req : Post cfg) (x : Index) (s : Slot) : Slot → Prop
  | same : Touch f req x s s
  | lock (lock : Option Str) : Touch f req x s { s with lock := lock }
  | getData {body : GetDataPostDto} {coins : ℕ → Coins cfg} (hreq : req = .getData body coins)
    (hx : x = indexOf body.indexArg) (hpass : body.Passes f) :
    Touch f req x s (getDataSlot f (body.request hpass coins) s).2
  | report {body : ResultReportPostDto} (hreq : req = .resultReport body)
    (hx : x = indexOf body.indexArg) (hpass : body.Passes f) :
    Touch f req x s
      (resultReportSlot f (nodeIdOf body.nodeIdArg) (isValidOf body.isValidArg) s).2

theorem handle_touch (f : Faults) (w : World) (req : Post cfg) (x : Index) :
    Touch f req x (w.slot x) ((handle f w req).2.slot x) := by
  cases req with
  | genSecret body fuel randomStr randomNum =>
    simp only [handle]
    by_cases hpass : body.Passes f
    · cases hy : generateIndex f w randomStr fuel 0 with
      | looping =>
        rw [genSecret_loops hpass hy]
        exact .same
      | thrown =>
        rw [genSecret_throws hpass hy]
        exact .same
      | found y =>
        have hlock : Touch f (.genSecret body fuel randomStr randomNum : Post cfg) x (w.slot x)
            ((w.setSlot y { w.slot y with lock := some ['1'] }).slot x) := by
          rw [World.setSlot_slot]
          split_ifs with hx
          · rw [hx]
            exact .lock _
          · exact .same
        rcases genSecret_slot (w := w) hpass hy with h | h
        · rw [h]
          exact .same
        · rw [h]
          exact hlock
    · rw [genSecret_aborts hpass]
      exact .same
  | getData body coins =>
    simp only [handle]
    by_cases hpass : body.Passes f
    · rw [getData_answers hpass, World.setSlot_slot]
      split_ifs with hx
      · subst hx
        exact .getData rfl rfl hpass
      · exact .same
    · rw [getData_aborts hpass]
      exact .same
  | resultReport body =>
    simp only [handle]
    by_cases hpass : body.Passes f
    · rw [resultReport_answers hpass, World.setSlot_slot]
      split_ifs with hx
      · subst hx
        exact .report rfl rfl hpass
      · exact .same
    · rw [resultReport_aborts hpass]
      exact .same

/-- What a `getData` may change under its index besides the counter and the waiting file: scores
become invalid, and secrets are added. -/
structure Grows (s t : Slot) : Prop where
  time : t.time = s.time
  valid : ∀ nodeId, t.valid nodeId = s.valid nodeId ∨ t.valid nodeId = some nodeSecretInvalid
  secret : ∀ key, t.secret key = none → s.secret key = none

theorem Grows.refl (s : Slot) : Grows s s := ⟨rfl, fun _ ↦ .inl rfl, fun _ h ↦ h⟩

theorem Grows.counted (s : Slot) : Grows s (counted s) := ⟨rfl, fun _ ↦ .inl rfl, fun _ h ↦ h⟩

theorem Grows.copied (cfg : Config) (f : Faults) (nodeId : ℕ) (s : Slot) :
    Grows s (copied cfg f nodeId s) where
  time := rfl
  valid _ := .inl rfl
  secret key h := by
    simp only [Server.copied] at h
    split_ifs at h
    · by_cases hkey : key = (.server, nodeId)
      · rw [hkey, Function.update_self] at h
        cases h
      · rwa [Function.update_of_ne hkey] at h
    · exact h

theorem Grows.invalid {s t : Slot} (h : Grows s t) (nodeId : ℕ) {waiting : Option Bytes} :
    Grows s { t with
      valid := Function.update t.valid nodeId (some nodeSecretInvalid)
      waiting := waiting } where
  time := h.time
  valid n := by
    by_cases hn : n = nodeId
    · rw [hn]
      exact .inr (Function.update_self _ _ _)
    · dsimp only
      rw [Function.update_of_ne hn]
      exact h.valid n
  secret := h.secret

theorem Grows.trans {s t u : Slot} (h : Grows s t) (h' : Grows t u) : Grows s u where
  time := h'.time.trans h.time
  valid nodeId := (h'.valid nodeId).elim (fun heq ↦ heq ▸ h.valid nodeId) .inr
  secret key hkey := h.secret key (h'.secret key hkey)

theorem move_grows (f : Faults) (nodeId : ℕ) (data : List SecretDto) (s : Slot) :
    Grows s (move cfg f nodeId data s).2 := by
  by_cases hcopies : Copies f nodeId s
  · rw [move_copies hcopies]
    have hcopied := Grows.copied cfg f nodeId s
    exact Faults.write_state hcopied (hcopied.invalid nodeId) fun _ ↦ hcopied.invalid nodeId
  · rw [(move_refuses hcopies).1]
    exact .refl s

theorem getDataSlot_grows {f : Faults} {r : GetData.Request cfg} {s : Slot}
    (h : Pulls f r s) : Grows s (getDataSlot f r s).2 := by
  obtain ⟨data, hdata⟩ := getDataSlot_pulls h
  rw [hdata]
  refine Faults.write_state (.refl s) (.counted s) fun _ ↦ ?_
  split_ifs
  · exact (Grows.counted s).trans (move_grows f r.nodeId data (counted s))
  · exact .counted s

/-- A generator touches the slot of its message only, and there neither secrets nor scores. -/
theorem process_slot (o : Outcome) (p : Process) (w : World) (x : Index) :
    (p.step o w).2.slot x = w.slot x ∨ ∃ msg pc, p = some (msg, pc) ∧ x = msg.index ∧
      (p.step o w).2.slot x = (pc.step msg.source o (w.slot x)).2 := by
  rcases Process.step_cases o p w with hr | ⟨msg, hr⟩ | ⟨msg, pc, hp, hr⟩
  · rw [hr]
    exact .inl rfl
  · rw [hr]
    exact .inl rfl
  · rw [hr]
    simp only [World.setSlot_slot]
    split_ifs with hx
    · subst hx
      exact .inr ⟨msg, pc, hp, rfl, rfl⟩
    · exact .inl rfl

theorem pc_step_frame (source : Source) (o : Outcome) (pc : Pc) (s : Slot) :
    (pc.step source o s).2.valid = s.valid ∧ (pc.step source o s).2.secret = s.secret ∧
      (pc ≠ .saveWaiting ∨ o.waiting = none → (pc.step source o s).2.waiting = s.waiting) := by
  rcases Pc.step_slot source o pc s with ⟨_, ht⟩ | ⟨hpc, ht⟩ | ht | ⟨-, ht⟩ | ⟨-, ht⟩
  · rw [ht]
    exact ⟨rfl, rfl, fun _ ↦ rfl⟩
  · rw [ht]
    refine ⟨rfl, rfl, ?_⟩
    rintro (h | h)
    · exact absurd hpc h
    · rw [h]
      rfl
  · rw [ht]
    exact ⟨rfl, rfl, fun _ ↦ rfl⟩
  · rw [ht]
    exact ⟨rfl, rfl, fun _ ↦ rfl⟩
  · rw [ht]
    exact ⟨rfl, rfl, fun _ ↦ rfl⟩

section Example

def exampleIndex : Index := List.replicate 16 'a'

def exampleRunning : Bytes := zeros Config.release.secretFileSize

def exampleSecret : Bytes := releaseSecret.bytes

/-- A request for an index and the iteration of the generator that makes it visible. -/
def generating : List (Act Config.release Unit) :=
  .request (Faults.success Config.release) (.genSecret ⟨.missing⟩ 1 (fun _ ↦ exampleIndex) 7) ::
    List.replicate 7 (.generator () ⟨some exampleRunning, some exampleSecret, 1⟩)

def generated : Slot :=
  { Slot.empty with
    time := Function.update Slot.empty.time .server (some 1)
    count := Function.update Slot.empty.count .server (some 0)
    running := Function.update Slot.empty.running .server (some exampleRunning)
    waiting := some exampleSecret }

theorem generating_reaches (secret : Index → Bytes) :
    ∃ t, exec State.step (State.start Unit 1 secret) generating = some t ∧
      t.world.slot exampleIndex = generated ∧ t.reported = [] := by
  exact ⟨_, rfl, rfl, rfl⟩

/-- A report of the first node on an index. -/
def report (x : Index) (isValid : UInt16) : Post Config.release :=
  .resultReport ⟨.missing, .value x, .value isValid⟩

theorem handle_report_generated {f : Faults} {w : World} {isValid : UInt16}
    (hw : w.slot exampleIndex = generated) :
    handle f w (report exampleIndex isValid) =
      let r := resultReportSlot f clientNode.toNat isValid.toNat generated
      (r.1.status f, w.setSlot exampleIndex r.2) := by
  have hpass : (⟨.missing, .value exampleIndex, .value isValid⟩ : ResultReportPostDto).Passes f :=
    ⟨by simp [Faults.prints, Field.read], by simp [Faults.prints, Field.read], Nat.one_pos,
      List.cons_ne_nil _ _⟩
  rw [report, handle, resultReport_answers hpass]
  simp only [indexOf, Field.read, Option.getD_some, hw]
  rfl

end Example

end ShannonNet.Server.Sequence
