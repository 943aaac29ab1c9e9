import ShannonNet.Server.GenSecret
import ShannonNet.Server.GetData
import ShannonNet.Server.ResultReport

namespace ShannonNet.Server

open Library.Bitset Library.Buffer Utils

/-- A field of a posted json object. -/
inductive Field (α : Type)
  | missing
  | null
  | value (v : α)
  deriving DecidableEq

/-- A missing field keeps the default of its `DTO_FIELD`, `none` where it has none. -/
def Field.read {α : Type} (dflt : Option α) : Field α → Option α
  | missing => dflt
  | null => none
  | value v => some v

def clientNode : UInt16 := 1

structure GenSecretPostDto where
  nodeIdArg : Field UInt16

structure GetDataPostDto where
  nodeIdArg : Field UInt16
  indexArg : Field Str
  progressArg : Field UInt32

structure ResultReportPostDto where
  nodeIdArg : Field UInt16
  indexArg : Field Str
  isValidArg : Field UInt16

def nodeIdOf (nodeIdArg : Field UInt16) : ℕ := ((nodeIdArg.read (some clientNode)).getD 0).toNat

def indexOf (indexArg : Field Str) : Index := (indexArg.read none).getD []

def progressOf (progressArg : Field UInt32) : ℕ := ((progressArg.read none).getD 0).toNat

def isValidOf (isValidArg : Field UInt16) : ℕ :=
  ((isValidArg.read (some (UInt16.ofNat nodeSecretInvalid))).getD
    (UInt16.ofNat nodeSecretInvalid)).toNat

/-- The calls of the handlers that may throw. `draw n` stands for the two reads of Redis for the
string `n`, `secretA` and `encrypt` for the tensor of the running key and the threads that use it,
`moveBuffer` for the buffer of `move`, and `response` for `createDtoResponse`. -/
inductive Call
  | draw (n : ℕ)
  | set
  | lpush
  | createTime
  | secretA
  | redisProgress
  | encrypt
  | zincrby
  | isValid
  | moveBuffer
  | zadd
  | response

/-- What the library calls of one request do: which of them throw, and whether Redis has executed
such a command; whether the conversion of a null number for the log returns, whether `set` and
`lpush` succeed, the waiting file opens for `process` and again for `move`, how many bytes `move`
reads of it, whether its target opens, how many bytes reach it, and whether the two `Remove`s
succeed. -/
structure Faults where
  thrown : Call → Option Bool
  nullPrints : Bool
  setOk : Bool
  pushOk : Bool
  waitingOpened : Bool
  moveOpened : Bool
  moveRead : ℕ
  targetOpened : Bool
  written : ℕ
  waitingRemoved : Bool
  secretRemoved : Bool

def Faults.success (cfg : Config) : Faults where
  thrown _ := none
  nullPrints := true
  setOk := true
  pushOk := true
  waitingOpened := true
  moveOpened := true
  moveRead := cfg.secretASize
  targetOpened := true
  written := cfg.secretASize
  waitingRemoved := true
  secretRemoved := true

def Faults.prints (f : Faults) {α : Type} (field : Option α) : Bool := f.nullPrints || field.isSome

def Faults.throws (f : Faults) (c : Call) : Bool := (f.thrown c).isSome

/-- A body gets past the log and the assertions at the head of its handler. -/
def GenSecretPostDto.Passes (f : Faults) (body : GenSecretPostDto) : Prop :=
  f.prints (body.nodeIdArg.read (some clientNode)) ∧ nodeIdOf body.nodeIdArg > 0

def GetDataPostDto.Passes (f : Faults) (body : GetDataPostDto) : Prop :=
  f.prints (body.nodeIdArg.read (some clientNode)) ∧ f.prints (body.progressArg.read none) ∧
    nodeIdOf body.nodeIdArg > 0 ∧ indexOf body.indexArg ≠ [] ∧ progressOf body.progressArg ≥ 0

def ResultReportPostDto.Passes (f : Faults) (body : ResultReportPostDto) : Prop :=
  f.prints (body.nodeIdArg.read (some clientNode)) ∧
    f.prints (body.isValidArg.read (some (UInt16.ofNat nodeSecretInvalid))) ∧
    nodeIdOf body.nodeIdArg > 0 ∧ indexOf body.indexArg ≠ []

instance (f : Faults) (body : GenSecretPostDto) : Decidable (body.Passes f) :=
  inferInstanceAs (Decidable (_ ∧ _))

instance (f : Faults) (body : GetDataPostDto) : Decidable (body.Passes f) :=
  inferInstanceAs (Decidable (_ ∧ _ ∧ _ ∧ _ ∧ _))

instance (f : Faults) (body : ResultReportPostDto) : Decidable (body.Passes f) :=
  inferInstanceAs (Decidable (_ ∧ _ ∧ _ ∧ _))

/-- How a handler ends: by a crash of the process, not at all within the given draws, with an
exception, or with a response. -/
inductive Result (α : Type)
  | aborted
  | looping
  | thrown
  | response (res : Response α)

/-- The status code of the answer. The HTTP library answers an exception with 500. -/
def Result.status (f : Faults) {α : Type} : Result α → Option ℕ
  | thrown => some 500
  | response res => some (if f.throws .response then 500 else res.statusCode)
  | _ => none

/-- A call that writes: the handler goes on from `t`, or ends with the exception, which may come
when Redis has executed the command. -/
def Faults.write (f : Faults) (c : Call) {α σ : Type} (s t : σ) (next : σ → Result α × σ) :
    Result α × σ :=
  match f.thrown c with
  | none => next t
  | some executed => (.thrown, if executed then t else s)

def Free (w : World) (x : Index) : Prop := (w.slot x).lock = none ∧ (w.slot x).time .server = none

instance (w : World) (x : Index) : Decidable (Free w x) := inferInstanceAs (Decidable (_ ∧ _))

inductive Drawn
  | looping
  | thrown
  | found (randomStr : Str)

/-- The loop of `genSecret` over the strings `genRandomStr` returns from its call `call` on. -/
def generateIndex (f : Faults) (w : World) (randomStr : ℕ → Str) : ℕ → ℕ → Drawn
  | 0, _ => .looping
  | fuel + 1, call =>
    if f.throws (.draw call) then .thrown
    else if Free w (randomStr call) then .found (randomStr call)
    else generateIndex f w randomStr fuel (call + 1)

def genSecret (fuel : ℕ) (randomStr : ℕ → Str) (randomNum : ℕ) (f : Faults)
    (body : GenSecretPostDto) (w : World) : Result (Option GenSecret.Dto) × World :=
  let nodeId := nodeIdOf body.nodeIdArg
  if body.Passes f then
    match generateIndex f w randomStr fuel 0 with
    | .looping => (.looping, w)
    | .thrown => (.thrown, w)
    | .found x =>
      let locked := w.setSlot x { w.slot x with lock := some ['1'] }
      f.write .set w (if f.setOk then locked else w) fun w ↦
        if f.setOk then
          let pushed := w.lpush ⟨.server, randomNum, x, serverNode, nodeId⟩
          f.write .lpush w (if f.pushOk then pushed else w) fun w ↦
            if f.pushOk then
              (.response ⟨200, "success", some ⟨serverNode, randomNum, x⟩⟩, w)
            else (.response ⟨500, "json lpush error", none⟩, w)
        else (.response ⟨500, "randomStr set error", none⟩, w)
  else (.aborted, w)

variable (cfg : Config)

/-- The buffer of `move`: what is not read stays zero, all of it if the file does not open. -/
def moveBufferVec (f : Faults) (waiting : Bytes) : Bytes :=
  load cfg.secretASize (if f.moveOpened then waiting.take f.moveRead else []) 0

def move (f : Faults) (nodeId : ℕ) (data : List SecretDto) (s : Slot) :
    Result (List SecretDto) × Slot :=
  if f.throws .isValid then (.thrown, s)
  else if (s.valid nodeId).getD 0 ≠ 0 then
    (.response ⟨500, "current secret have been added", []⟩, s)
  else if f.throws .moveBuffer then (.thrown, s)
  else
    let file := (moveBufferVec cfg f (s.waiting.getD [])).take f.written
    let s := { s with
      secret := if f.targetOpened then Function.update s.secret (.server, nodeId) (some file)
        else s.secret }
    f.write .zadd s
      { s with valid := Function.update s.valid nodeId (some nodeSecretInvalid) } fun s ↦
        (.response ⟨200, "success", data⟩,
          { s with waiting := if f.waitingRemoved then none else s.waiting })

def counted (s : Slot) : Slot :=
  { s with count := Function.update s.count .server (some ((s.count .server).getD 0 + 1)) }

variable {cfg} in
/-- `Encrypt::process`. -/
def process (f : Faults) (r : GetData.Request cfg) (running content : Bytes) (s : Slot) :
    Result (List SecretDto) × Slot :=
  if !f.waitingOpened then (.response ⟨500, "waiting secret open failed", []⟩, s)
  else if r.progress ≥ cfg.progress then
    if f.throws .redisProgress then (.thrown, s)
    else
      let redisProgress := (s.count .server).getD 0
      (.response ⟨201, "secret progress error", [⟨[], [], (redisProgress + 2 ^ 32 - 1) % 2 ^ 32⟩]⟩,
        s)
  else if f.throws .encrypt then (.thrown, s)
  else
    match encryptPiece cfg running content r.progress r.coins with
    | none => (.aborted, s)
    | some data =>
      let redisProgress := (s.count .server).getD 0 + 1
      f.write .zincrby s (counted s) fun s ↦
        if redisProgress ≥ cfg.progress then move cfg f r.nodeId data s
        else (.response ⟨200, "success", data⟩, s)

variable {cfg} in
/-- `getData` behind its assertions, on the index of the slot. `torch::from_file` throws for a
running key of less than `M * N` bytes. -/
def getDataSlot (f : Faults) (r : GetData.Request cfg) (s : Slot) :
    Result (List SecretDto) × Slot :=
  if f.throws .createTime then (.thrown, s)
  else if s.time .server = none then (.response ⟨500, "index error or not generated", []⟩, s)
  else
    match s.running .server, s.waiting with
    | none, _ => (.response ⟨500, "running secret not exist", []⟩, s)
    | some _, none => (.response ⟨500, "waiting secret not exist", []⟩, s)
    | some running, some content =>
      if (s.secret (.server, r.nodeId)).isSome then
        (.response ⟨500, "current secret exists", []⟩, s)
      else if f.throws .secretA ∨ running.length < cfg.secretFileSize then (.thrown, s)
      else process f r running content s

def getData (f : Faults) (coins : ℕ → Coins cfg) (body : GetDataPostDto) (w : World) :
    Result (List SecretDto) × World :=
  let index := indexOf body.indexArg
  if h : body.Passes f then
    let r := getDataSlot f
      ⟨nodeIdOf body.nodeIdArg, progressOf body.progressArg, coins, h.2.2.1⟩ (w.slot index)
    (r.1, w.setSlot index r.2)
  else (.aborted, w)

def resultReportSlot (f : Faults) (nodeId isValid : ℕ) (s : Slot) : Result Unit × Slot :=
  if f.throws .createTime then (.thrown, s)
  else if s.time .server = none then (.response ⟨500, "index error or not generated", ()⟩, s)
  else if isValid = nodeSecretValid then
    f.write .zadd s { s with valid := Function.update s.valid nodeId (some nodeSecretValid) }
      fun s ↦ (.response ⟨200, "valid success", ()⟩, s)
  else
    f.write .zadd s { s with valid := Function.update s.valid nodeId (some nodeSecretInvalid) }
      fun s ↦
        if s.secret (.server, nodeId) = none then
          (.response ⟨500, "current secret not exist", ()⟩, s)
        else if !f.secretRemoved then (.response ⟨500, "current secret remove failed", ()⟩, s)
        else (.response ⟨200, "success", ()⟩,
          { s with secret := Function.update s.secret (.server, nodeId) none })

def resultReport (f : Faults) (body : ResultReportPostDto) (w : World) : Result Unit × World :=
  let index := indexOf body.indexArg
  if body.Passes f then
    let r := resultReportSlot f (nodeIdOf body.nodeIdArg) (isValidOf body.isValidArg) (w.slot index)
    (r.1, w.setSlot index r.2)
  else (.aborted, w)

/-- A request to one of the three endpoints, with what its handler draws. -/
inductive Post (cfg : Config)
  | genSecret (body : GenSecretPostDto) (fuel : ℕ) (randomStr : ℕ → Str) (randomNum : ℕ)
  | getData (body : GetDataPostDto) (coins : ℕ → Coins cfg)
  | resultReport (body : ResultReportPostDto)

variable {cfg} in
def handle (f : Faults) (w : World) : Post cfg → Option ℕ × World
  | .genSecret body fuel randomStr randomNum =>
    let r := genSecret fuel randomStr randomNum f body w
    (r.1.status f, r.2)
  | .getData body coins =>
    let r := getData cfg f coins body w
    (r.1.status f, r.2)
  | .resultReport body =>
    let r := resultReport f body w
    (r.1.status f, r.2)

section Write

variable {f : Faults} {c : Call} {α σ : Type} {s t : σ} {next : σ → Result α × σ}

theorem Faults.throws_eq_false : f.throws c = false ↔ f.thrown c = none :=
  Option.isSome_eq_false_iff.trans Option.isNone_iff_eq_none

theorem Faults.write_returns (h : f.thrown c = none) : f.write c s t next = next t := by
  rw [write, h]

theorem Faults.write_throws {executed : Bool} (h : f.thrown c = some executed) :
    f.write c s t next = (.thrown, if executed then t else s) := by
  rw [write, h]

/-- What a call that writes leaves, whether it throws or not. -/
theorem Faults.write_state {P : σ → Prop} (hs : P s) (ht : P t)
    (hnext : f.thrown c = none → P (next t).2) : P (f.write c s t next).2 := by
  cases hc : f.thrown c with
  | none =>
    rw [write_returns hc]
    exact hnext hc
  | some executed =>
    rw [write_throws hc]
    cases executed
    · exact hs
    · exact ht

end Write

section GenSecret

variable {fuel : ℕ} {randomStr : ℕ → Str} {randomNum : ℕ} {f : Faults} {body : GenSecretPostDto}
  {w : World}

theorem generateIndex_free {call : ℕ} {x : Str}
    (h : generateIndex f w randomStr fuel call = .found x) : Free w x := by
  induction fuel generalizing call with
  | zero => cases h
  | succ fuel ih =>
    simp only [generateIndex] at h
    split_ifs at h with hthrows hfree
    · cases h
      exact hfree
    · exact ih h

/-- The loop ends at a string that is free, or that Redis throws for. -/
theorem exists_generateIndex :
    (∃ fuel, generateIndex f w randomStr fuel 0 ≠ .looping) ↔
      ∃ n, Free w (randomStr n) ∨ f.throws (.draw n) := by
  constructor
  · rintro ⟨fuel, h⟩
    have hmem : ∀ fuel call, generateIndex f w randomStr fuel call ≠ .looping →
        ∃ n, Free w (randomStr n) ∨ f.throws (.draw n) := by
      intro fuel
      induction fuel with
      | zero =>
        intro call h
        exact absurd rfl h
      | succ fuel ih =>
        intro call h
        simp only [generateIndex] at h
        split_ifs at h with hthrows hfree
        · exact ⟨call, .inr hthrows⟩
        · exact ⟨call, .inl hfree⟩
        · exact ih _ h
    exact hmem fuel 0 h
  · rintro ⟨n, hn⟩
    have hreach : ∀ k call, Free w (randomStr (call + k)) ∨ f.throws (.draw (call + k)) →
        generateIndex f w randomStr (k + 1) call ≠ .looping := by
      intro k
      induction k with
      | zero =>
        intro call hend
        rw [generateIndex]
        split_ifs with hthrows hfree
        · simp
        · simp
        · exact absurd hend (not_or.mpr ⟨hfree, hthrows⟩)
      | succ k ih =>
        intro call hend
        rw [generateIndex]
        split_ifs with hthrows hfree
        · simp
        · simp
        · exact ih (call + 1) (by rwa [Nat.add_right_comm, Nat.add_assoc])
    exact ⟨n + 1, hreach n 0 (by rwa [Nat.zero_add])⟩

theorem genSecret_aborts (h : ¬body.Passes f) :
    genSecret fuel randomStr randomNum f body w = (.aborted, w) :=
  if_neg h

theorem genSecret_loops (h : body.Passes f) (hx : generateIndex f w randomStr fuel 0 = .looping) :
    genSecret fuel randomStr randomNum f body w = (.looping, w) := by
  simp [genSecret, h, hx]

theorem genSecret_throws (h : body.Passes f) (hx : generateIndex f w randomStr fuel 0 = .thrown) :
    genSecret fuel randomStr randomNum f body w = (.thrown, w) := by
  simp [genSecret, h, hx]

theorem genSecret_answers {x : Str} (h : body.Passes f)
    (hx : generateIndex f w randomStr fuel 0 = .found x) :
    genSecret fuel randomStr randomNum f body w =
      f.write .set w (if f.setOk then w.setSlot x { w.slot x with lock := some ['1'] } else w)
        fun w ↦ if f.setOk then
          f.write .lpush w (if f.pushOk then
            w.lpush ⟨.server, randomNum, x, serverNode, nodeIdOf body.nodeIdArg⟩ else w) fun w ↦
              if f.pushOk then
                (.response ⟨200, "success", some ⟨serverNode, randomNum, x⟩⟩, w)
              else (.response ⟨500, "json lpush error", none⟩, w)
        else (.response ⟨500, "randomStr set error", none⟩, w) := by
  simp [genSecret, h, hx]

/-- A `genSecret` leaves the slots as they were, or with its lock. -/
theorem genSecret_slot {x : Str} (h : body.Passes f)
    (hx : generateIndex f w randomStr fuel 0 = .found x) :
    (genSecret fuel randomStr randomNum f body w).2.slot = w.slot ∨
      (genSecret fuel randomStr randomNum f body w).2.slot =
        (w.setSlot x { w.slot x with lock := some ['1'] }).slot := by
  rw [genSecret_answers h hx]
  set locked := w.setSlot x { w.slot x with lock := some ['1'] }
  let P (u : World) : Prop := u.slot = w.slot ∨ u.slot = locked.slot
  have hset : P (if f.setOk then locked else w) := by
    split_ifs
    · exact .inr rfl
    · exact .inl rfl
  refine Faults.write_state (P := P) (.inl rfl) hset fun _ ↦ ?_
  generalize (if f.setOk then locked else w) = u at hset
  have hpush : P (if f.pushOk then
      u.lpush ⟨.server, randomNum, x, serverNode, nodeIdOf body.nodeIdArg⟩ else u) := by
    split_ifs <;> exact hset
  by_cases hsetOk : f.setOk
  · rw [if_pos hsetOk]
    refine Faults.write_state (P := P) hset hpush fun _ ↦ ?_
    split_ifs at hpush ⊢ <;> exact hpush
  · rw [if_neg hsetOk]
    exact hset

end GenSecret

section GetData

variable {cfg} {f : Faults} {r : GetData.Request cfg} {s : Slot}

/-- The request comes to its `zincrby`. -/
structure Pulls (f : Faults) (r : GetData.Request cfg) (s : Slot) : Prop where
  createTime : f.thrown .createTime = none
  time : s.time .server ≠ none
  running : ∃ running, s.running .server = some running ∧ cfg.secretFileSize ≤ running.length
  waiting : s.waiting ≠ none
  secret : s.secret (.server, r.nodeId) = none
  secretA : f.thrown .secretA = none
  opened : f.waitingOpened = true
  progress : r.progress < cfg.progress
  encrypt : f.thrown .encrypt = none

theorem process_pulls {running content : Bytes} (hopened : f.waitingOpened = true)
    (hprogress : r.progress < cfg.progress) (hencrypt : f.thrown .encrypt = none) :
    process f r running content s =
      f.write .zincrby s (counted s) fun t ↦
        if (s.count .server).getD 0 + 1 ≥ cfg.progress then
          move cfg f r.nodeId (GetData.pieceData cfg running content r) t
        else (.response ⟨200, "success", GetData.pieceData cfg running content r⟩, t) := by
  rw [process, hopened, if_neg (by simp), if_neg (by omega), encryptPiece_eq hprogress,
    Faults.throws_eq_false.mpr hencrypt]
  rfl

theorem getDataSlot_process {running content : Bytes} (hcreated : f.thrown .createTime = none)
    (htime : s.time .server ≠ none) (hrunning : s.running .server = some running)
    (hwaiting : s.waiting = some content) (hsecret : s.secret (.server, r.nodeId) = none)
    (hsecretA : f.thrown .secretA = none) (hlen : cfg.secretFileSize ≤ running.length) :
    getDataSlot f r s = process f r running content s := by
  simp [getDataSlot, Faults.throws, hcreated, htime, hrunning, hwaiting, hsecret, hsecretA,
    Nat.not_lt.mpr hlen]

theorem getDataSlot_pulls (h : Pulls f r s) :
    ∃ data, getDataSlot f r s = f.write .zincrby s (counted s) fun t ↦
      if (s.count .server).getD 0 + 1 ≥ cfg.progress then move cfg f r.nodeId data t
      else (.response ⟨200, "success", data⟩, t) := by
  obtain ⟨running, hrunning, hlen⟩ := h.running
  obtain ⟨content, hwaiting⟩ := Option.ne_none_iff_exists'.mp h.waiting
  rw [getDataSlot_process h.createTime h.time hrunning hwaiting h.secret h.secretA hlen,
    process_pulls h.opened h.progress h.encrypt]
  exact ⟨_, rfl⟩

/-- The request ends without an answer 200 and leaves the slot alone. -/
def Refuses (f : Faults) (s : Slot) (r : Result (List SecretDto) × Slot) : Prop :=
  r.2 = s ∧ ∃ code, r.1.status f = some code ∧ code ≠ 200

theorem refuses_thrown : Refuses f s (.thrown, s) := ⟨rfl, 500, rfl, by decide⟩

theorem refuses_response {res : Response (List SecretDto)} (h : res.statusCode ≠ 200) :
    Refuses f s (.response res, s) := by
  refine ⟨rfl, _, rfl, ?_⟩
  split_ifs
  · decide
  · exact h

theorem process_refuses {running content : Bytes}
    (h : ¬(f.waitingOpened = true ∧ r.progress < cfg.progress ∧ f.thrown .encrypt = none)) :
    Refuses f s (process f r running content s) := by
  unfold process
  split_ifs with hopened hprogress hthrows hencrypt
  · exact refuses_response (by simp)
  · exact refuses_thrown
  · exact refuses_response (by simp)
  · exact refuses_thrown
  · exact absurd ⟨by simpa using hopened, Nat.not_le.mp hprogress,
      Faults.throws_eq_false.mp (by simpa using hencrypt)⟩ h

theorem getDataSlot_refuses (h : ¬Pulls f r s) : Refuses f s (getDataSlot f r s) := by
  rw [getDataSlot]
  by_cases hthrows : f.throws .createTime
  · rw [if_pos hthrows]
    exact refuses_thrown
  rw [if_neg hthrows]
  rw [Bool.not_eq_true, Faults.throws_eq_false] at hthrows
  by_cases htime : s.time .server = none
  · rw [if_pos htime]
    exact refuses_response (by simp)
  rw [if_neg htime]
  split
  · exact refuses_response (by simp)
  · exact refuses_response (by simp)
  · rename_i running content hrunning hwaiting
    split_ifs with hsecret hload
    · exact refuses_response (by simp)
    · exact refuses_thrown
    · rw [not_or, Bool.not_eq_true, Faults.throws_eq_false, Nat.not_lt] at hload
      apply process_refuses
      rintro ⟨hopened, hprogress, hencrypt⟩
      exact h ⟨hthrows, htime, ⟨running, hrunning, hload.2⟩, by simp [hwaiting],
        by simpa using hsecret, hload.1, hopened, hprogress, hencrypt⟩

/-- The request comes to the copy of `move`. -/
structure Copies (f : Faults) (nodeId : ℕ) (s : Slot) : Prop where
  isValid : f.thrown .isValid = none
  valid : (s.valid nodeId).getD 0 = 0
  moveBuffer : f.thrown .moveBuffer = none

/-- What `move` writes before it sets the score. -/
def copied (cfg : Config) (f : Faults) (nodeId : ℕ) (s : Slot) : Slot :=
  { s with
    secret := if f.targetOpened then Function.update s.secret (.server, nodeId)
        (some ((moveBufferVec cfg f (s.waiting.getD [])).take f.written))
      else s.secret }

variable {nodeId : ℕ} {data : List SecretDto}

theorem move_refuses (h : ¬Copies f nodeId s) : Refuses f s (move cfg f nodeId data s) := by
  rw [move]
  by_cases hread : f.throws .isValid
  · rw [if_pos hread]
    exact refuses_thrown
  rw [if_neg hread]
  by_cases hvalid : (s.valid nodeId).getD 0 = 0
  · rw [if_neg (not_not.mpr hvalid), if_pos]
    · exact refuses_thrown
    · by_contra hbuffer
      rw [Bool.not_eq_true, Faults.throws_eq_false] at hread hbuffer
      exact h ⟨hread, hvalid, hbuffer⟩
  · rw [if_pos hvalid]
    exact refuses_response (by simp)

theorem move_copies (h : Copies f nodeId s) :
    move cfg f nodeId data s = f.write .zadd (copied cfg f nodeId s)
      { copied cfg f nodeId s with
        valid := Function.update s.valid nodeId (some nodeSecretInvalid) } fun t ↦
          (.response ⟨200, "success", data⟩,
            { t with waiting := if f.waitingRemoved then none else t.waiting }) := by
  rw [move, Faults.throws_eq_false.mpr h.isValid, if_neg (by simp), if_neg (not_not.mpr h.valid),
    Faults.throws_eq_false.mpr h.moveBuffer, if_neg (by simp)]
  rfl

theorem move_moves (h : Copies f nodeId s) (hzadd : f.thrown .zadd = none) :
    move cfg f nodeId data s = (.response ⟨200, "success", data⟩,
      { copied cfg f nodeId s with
        valid := Function.update s.valid nodeId (some nodeSecretInvalid)
        waiting := if f.waitingRemoved then none else s.waiting }) := by
  rw [move_copies h, Faults.write_returns hzadd]
  rfl

end GetData

section Bodies

variable {cfg} {f : Faults} {w : World}

def GetDataPostDto.request {body : GetDataPostDto} (h : body.Passes f) (coins : ℕ → Coins cfg) :
    GetData.Request cfg :=
  ⟨nodeIdOf body.nodeIdArg, progressOf body.progressArg, coins, h.2.2.1⟩

theorem getData_aborts {coins : ℕ → Coins cfg} {body : GetDataPostDto} (h : ¬body.Passes f) :
    getData cfg f coins body w = (.aborted, w) :=
  dif_neg h

theorem getData_answers {coins : ℕ → Coins cfg} {body : GetDataPostDto} (h : body.Passes f) :
    getData cfg f coins body w =
      let r := getDataSlot f (body.request h coins) (w.slot (indexOf body.indexArg))
      (r.1, w.setSlot (indexOf body.indexArg) r.2) := by
  rw [getData, dif_pos h]
  rfl

theorem resultReport_aborts {body : ResultReportPostDto} (h : ¬body.Passes f) :
    resultReport f body w = (.aborted, w) :=
  if_neg h

theorem resultReport_answers {body : ResultReportPostDto} (h : body.Passes f) :
    resultReport f body w =
      let r := resultReportSlot f (nodeIdOf body.nodeIdArg) (isValidOf body.isValidArg)
        (w.slot (indexOf body.indexArg))
      (r.1, w.setSlot (indexOf body.indexArg) r.2) :=
  if_pos h

end Bodies

end ShannonNet.Server
