import ShannonNet.Server.Encrypt
import ShannonNet.Utils.ReadFileSize

namespace ShannonNet.Server.GetData

open Library.Bitset Library.Buffer Utils

variable {cfg : Config}

/-- The body of a `getData` request that passes the assertions of the handler, and the coins its
encryption draws. -/
structure Request (cfg : Config) where
  nodeId : ℕ
  progress : ℕ
  coins : ℕ → Coins cfg
  nodeId_pos : 0 < nodeId

/-- Where a request stands between two Redis or file steps of `getData`, `Encrypt::Encrypt`,
`Encrypt::process` and `Encrypt::move`, with the variables it still needs. -/
inductive Pc
  | createTime
  | runningExists
  | waitingExists
  | secretExists
  | fromFile
  | openWaiting (running : Bytes)
  | read (running content : Bytes)
  | zincrby (data : List SecretDto)
  | isValid (data : List SecretDto)
  | moveRead (data : List SecretDto)
  | moveOpen (data : List SecretDto) (moveBufferVec : Bytes)
  | moveWrite (data : List SecretDto) (moveBufferVec : Bytes)
  | moveZadd (data : List SecretDto)
  | moveRemove (data : List SecretDto)
  | done (res : Response (List SecretDto))

def error (description : String) : Pc := .done ⟨500, description, []⟩

def success (data : List SecretDto) : Pc := .done ⟨200, "success", data⟩

/-- One step of a request for the index of the slot. `dir` tells which node directories exist
under the secrets of the server. `none` means that the request is over or that the step throws. -/
def Pc.step (dir : ℕ → Bool) (r : Request cfg) : Pc → Slot → Option (Pc × Slot)
  | createTime, s =>
    some (if (s.time .server).isSome then runningExists
      else error "index error or not generated", s)
  | runningExists, s =>
    some (if (s.running .server).isSome then waitingExists else error "running secret not exist", s)
  | waitingExists, s =>
    some (if s.waiting.isSome then secretExists else error "waiting secret not exist", s)
  | secretExists, s =>
    some (if (s.secret (.server, r.nodeId)).isSome then error "current secret exists"
      else fromFile, s)
  | fromFile, s => (s.running .server).map fun running ↦ (openWaiting running, s)
  | openWaiting running, s =>
    -- The stream keeps the file it opened, whoever removes its name later.
    some (match s.waiting with
      | some content => read running content
      | none => error "waiting secret open failed", s)
  | read running content, s =>
    if r.progress ≥ cfg.progress then
      let redisProgress := (s.count .server).getD 0
      some (done ⟨201, "secret progress error", [⟨[], [], (redisProgress + 2 ^ 32 - 1) % 2 ^ 32⟩]⟩,
        s)
    else (encryptPiece cfg running content r.progress r.coins).map fun data ↦ (zincrby data, s)
  | zincrby data, s =>
    let redisProgress := (s.count .server).getD 0 + 1
    some (if redisProgress ≥ cfg.progress then isValid data else success data,
      { s with count := Function.update s.count .server (some redisProgress) })
  | isValid data, s =>
    some (if (s.valid r.nodeId).getD 0 ≠ 0 then error "current secret have been added"
      else moveRead data, s)
  | moveRead data, s => some (moveOpen data (load cfg.secretASize (s.waiting.getD []) 0), s)
  | moveOpen data moveBufferVec, s =>
    some (moveWrite data moveBufferVec, if dir r.nodeId then
      { s with secret := Function.update s.secret (.server, r.nodeId) (some []) } else s)
  | moveWrite data moveBufferVec, s =>
    let file := (s.secret (.server, r.nodeId)).map fun file ↦ overlay file 0 moveBufferVec
    some (moveZadd data, { s with secret := Function.update s.secret (.server, r.nodeId) file })
  | moveZadd data, s =>
    some (moveRemove data,
      { s with valid := Function.update s.valid r.nodeId (some nodeSecretInvalid) })
  | moveRemove data, s => some (success data, { s with waiting := none })
  | done _, _ => none

/-- The request is past the check of `move` and has not left its body. -/
def Pc.InMove : Pc → Prop
  | moveRead _ => True
  | moveOpen _ _ => True
  | moveWrite _ _ => True
  | moveZadd _ => True
  | moveRemove _ => True
  | _ => False

def Pc.isZincrby : Pc → Bool
  | zincrby _ => true
  | _ => false

theorem Pc.eq_zincrby {pc : Pc} (h : pc.isZincrby = true) : ∃ data, pc = zincrby data := by
  cases pc with
  | zincrby data => exact ⟨data, rfl⟩
  | _ => cases h

def Pc.isMoveRead : Pc → Bool
  | moveRead _ => true
  | _ => false

def Pc.quiet : Pc → Bool
  | zincrby _ => false
  | isValid _ => false
  | _ => true

theorem Pc.not_zincrby {pc : Pc} (h : pc.quiet = true) : pc.isZincrby = false := by
  cases pc with
  | zincrby data => exact absurd h (by simp [quiet])
  | _ => rfl

def pieceData (cfg : Config) (running content : Bytes) (r : Request cfg) : List SecretDto :=
  (List.range cfg.eachNum).map (record cfg running content r.progress r.coins)

theorem Pc.step_read {dir : ℕ → Bool} {r : Request cfg} {running content : Bytes} {s : Slot}
    (h : r.progress < cfg.progress) : (read running content).step dir r s =
      some (zincrby (pieceData cfg running content r), s) := by
  rw [step, if_neg (by omega), encryptPiece_eq h, Option.map_some, pieceData]

theorem Pc.fromFile_cases {dir : ℕ → Bool} {r : Request cfg} {pc' : Pc} {s s' : Slot}
    (h : fromFile.step dir r s = some (pc', s')) :
    s' = s ∧ ∃ running, pc' = openWaiting running := by
  obtain ⟨running, -, h⟩ := Option.map_eq_some_iff.mp h
  cases h
  exact ⟨rfl, running, rfl⟩

theorem Pc.read_cases {dir : ℕ → Bool} {r : Request cfg} {running content : Bytes} {pc' : Pc}
    {s s' : Slot} (h : (read running content).step dir r s = some (pc', s')) :
    s' = s ∧
      ((∃ res, pc' = done res) ∨ r.progress < cfg.progress ∧ ∃ data, pc' = zincrby data) := by
  simp only [step] at h
  split_ifs at h with hp
  · cases h
    exact ⟨rfl, .inl ⟨_, rfl⟩⟩
  · obtain ⟨data, -, h⟩ := Option.map_eq_some_iff.mp h
    cases h
    exact ⟨rfl, .inr ⟨not_le.mp hp, data, rfl⟩⟩

/-- What a step outside the body of `move` leaves alone, and how a request gets into that body. -/
theorem Pc.step_frame {dir : ℕ → Bool} {r : Request cfg} {pc pc' : Pc} {s s' : Slot}
    (h : pc.step dir r s = some (pc', s')) (hout : ¬pc.InMove) :
    s' = { s with count := s'.count } ∧
      (pc'.InMove → ∃ data, pc = .isValid data ∧ pc' = .moveRead data ∧
        (s.valid r.nodeId).getD 0 = 0) := by
  cases pc with
  | createTime | runningExists | waitingExists | secretExists =>
    cases h
    refine ⟨rfl, ?_⟩
    intro hin
    split_ifs at hin <;> exact hin.elim
  | fromFile =>
    obtain ⟨rfl, running, rfl⟩ := fromFile_cases h
    exact ⟨rfl, fun hin ↦ hin.elim⟩
  | openWaiting running =>
    cases h
    refine ⟨rfl, ?_⟩
    intro hin
    split at hin <;> exact hin.elim
  | read running content =>
    obtain ⟨rfl, ⟨res, rfl⟩ | ⟨-, data, rfl⟩⟩ := read_cases h
    · exact ⟨rfl, fun hin ↦ hin.elim⟩
    · exact ⟨rfl, fun hin ↦ hin.elim⟩
  | zincrby data =>
    cases h
    refine ⟨rfl, ?_⟩
    intro hin
    split_ifs at hin <;> exact hin.elim
  | isValid data =>
    cases h
    refine ⟨rfl, ?_⟩
    intro hin
    split_ifs at hin with hv
    · exact hin.elim
    · exact ⟨data, rfl, if_neg hv, not_ne_iff.mp hv⟩
  | done res => exact absurd h (by simp [Pc.step])
  | _ => exact absurd trivial hout

theorem Pc.step_enter {dir : ℕ → Bool} {r : Request cfg} {pc pc' : Pc} {s s' : Slot}
    (h : pc.step dir r s = some (pc', s')) (henter : pc'.isMoveRead = true) :
    ∃ data, pc = .isValid data := by
  by_cases hin : pc.InMove
  · cases pc with
    | moveRead data =>
      cases h
      cases henter
    | moveOpen data moveBufferVec =>
      cases h
      cases henter
    | moveWrite data moveBufferVec =>
      cases h
      cases henter
    | moveZadd data =>
      cases h
      cases henter
    | moveRemove data =>
      cases h
      cases henter
    | _ => exact hin.elim
  · have hin' : pc'.InMove := by
      cases pc' with
      | moveRead data => trivial
      | _ => cases henter
    obtain ⟨data, rfl, -⟩ := (step_frame h hin).2 hin'
    exact ⟨data, rfl⟩

theorem Pc.step_count {dir : ℕ → Bool} {r : Request cfg} {pc pc' : Pc} {s s' : Slot}
    (h : pc.step dir r s = some (pc', s')) :
    s'.count = if pc.isZincrby then
      Function.update s.count .server (some ((s.count .server).getD 0 + 1)) else s.count := by
  cases pc with
  | fromFile =>
    rw [(fromFile_cases h).1]
    rfl
  | read running content =>
    rw [(read_cases h).1]
    rfl
  | moveOpen data moveBufferVec =>
    cases h
    by_cases hd : dir r.nodeId = true <;> simp [hd, isZincrby]
  | done res => exact absurd h (by simp [Pc.step])
  | _ =>
    cases h
    rfl

structure Preserved (s s' : Slot) : Prop where
  time : s'.time = s.time
  running : s'.running = s.running
  piece : s'.piece = s.piece
  count : s'.count .client = s.count .client
  secret : ∀ nodeId, s'.secret (.client, nodeId) = s.secret (.client, nodeId)
  valid : ∀ nodeId, s'.valid nodeId = some nodeSecretValid → s.valid nodeId = some nodeSecretValid

theorem Pc.step_preserved {dir : ℕ → Bool} {r : Request cfg} {pc pc' : Pc} {s s' : Slot}
    (h : pc.step dir r s = some (pc', s')) : Preserved s s' := by
  have hcount : s'.count .client = s.count .client := by
    rw [step_count h]
    split_ifs
    · exact Function.update_of_ne (by decide) _ _
    · rfl
  by_cases hin : pc.InMove
  · cases pc with
    | moveRead data =>
      cases h
      exact ⟨rfl, rfl, rfl, rfl, fun _ ↦ rfl, fun _ ↦ id⟩
    | moveOpen data moveBufferVec =>
      cases h
      split_ifs
      · exact ⟨rfl, rfl, rfl, rfl, fun _ ↦ by simp, fun _ ↦ id⟩
      · exact ⟨rfl, rfl, rfl, rfl, fun _ ↦ rfl, fun _ ↦ id⟩
    | moveWrite data moveBufferVec =>
      cases h
      exact ⟨rfl, rfl, rfl, rfl, fun _ ↦ by simp, fun _ ↦ id⟩
    | moveZadd data =>
      cases h
      refine ⟨rfl, rfl, rfl, rfl, fun _ ↦ rfl, ?_⟩
      intro nodeId hvalid
      dsimp only at hvalid
      by_cases hn : nodeId = r.nodeId
      · subst hn
        rw [Function.update_self] at hvalid
        exact absurd (Option.some.inj hvalid) (by simp [nodeSecretInvalid, nodeSecretValid])
      · rwa [Function.update_of_ne hn] at hvalid
    | moveRemove data =>
      cases h
      exact ⟨rfl, rfl, rfl, rfl, fun _ ↦ rfl, fun _ ↦ id⟩
    | _ => exact hin.elim
  · obtain ⟨hs, -⟩ := step_frame h hin
    rw [hs] at hcount ⊢
    exact ⟨rfl, rfl, rfl, hcount, fun _ ↦ rfl, fun _ ↦ id⟩

end ShannonNet.Server.GetData
