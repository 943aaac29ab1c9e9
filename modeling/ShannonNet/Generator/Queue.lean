import ShannonNet.Generator.Failures
import ShannonNet.Library.Json

namespace ShannonNet.Generator.Queue

open Library Library.Bitset Library.Json Utils

/-- How one turn of the loop of `generateSecretFileScript` ends: at its head, with an exception that
its `catch` does not take, outside what the language defines, or not within the given draws. -/
inductive Exit
  | loopHead
  | escaped
  | undefined
  | drawing

/-- A write to Redis or to the files, in the order of the turn. -/
inductive Effect
  | createDirectory (path : Str)
  | stages (runningSavePath : Str) (d : RunDir)
  | saveRunning (saveFile : Str) (key : Option Bytes)
  | saveWaiting (waitingSaveFile : Str) (content : Bytes)
  | zaddTime (source saveIdx : Str) (timeStamp : ℕ)
  | zaddCount (source saveIdx : Str)
  | del (saveIdx : Str)

/-- The variables a message is read into. -/
structure Received where
  source : Str
  randomNum : ℕ
  saveIdx : Str
  serverNodeId : ℕ
  clientNodeId : ℕ

/-- The five fields of a message. -/
structure Fields where
  source : Json
  randomNum : Json
  index : Json
  serverNodeId : Json
  clientNodeId : Json

/-- `none` is a missing field. -/
def fields (jsonVal : Json) : Option Fields :=
  match jsonVal.find "source".toList, jsonVal.find "randomNum".toList,
    jsonVal.find "index".toList, jsonVal.find "serverNodeId".toList,
    jsonVal.find "clientNodeId".toList with
  | some source, some randomNum, some index, some serverNodeId, some clientNodeId =>
    some ⟨source, randomNum, index, serverNodeId, clientNodeId⟩
  | _, _, _, _, _ => none

def Fields.receive (v : Fields) : Read Received :=
  v.source.asString.bind fun source ↦
    (v.randomNum.asUnsigned 32).bind fun randomNum ↦
      v.index.asString.bind fun saveIdx ↦
        (v.serverNodeId.asUnsigned 16).bind fun serverNodeId ↦
          (v.clientNodeId.asUnsigned 16).bind fun clientNodeId ↦
            .value ⟨source, randomNum, saveIdx, serverNodeId, clientNodeId⟩

/-- The types of the message format. -/
def Fields.Typed (v : Fields) : Prop :=
  v.source.IsString ∧ v.randomNum.IsNumber ∧ v.index.IsString ∧ v.serverNodeId.IsNumber ∧
    v.clientNodeId.IsNumber

/-- No fraction is outside the type it is converted to. -/
def Fields.InRange (v : Fields) : Prop :=
  v.randomNum.Fits 32 ∧ v.serverNodeId.Fits 16 ∧ v.clientNodeId.Fits 16

theorem Fields.receive_hasValue_iff {v : Fields} :
    v.receive.HasValue ↔ v.Typed ∧ v.InRange := by
  have hvalues : v.receive.HasValue ↔ v.source.asString.HasValue ∧
      (v.randomNum.asUnsigned 32).HasValue ∧ v.index.asString.HasValue ∧
        (v.serverNodeId.asUnsigned 16).HasValue ∧ (v.clientNodeId.asUnsigned 16).HasValue := by
    apply Read.bind_hasValue_iff fun source ↦ Read.bind_hasValue_iff fun randomNum ↦
      Read.bind_hasValue_iff fun saveIdx ↦ Read.bind_hasValue_iff fun serverNodeId ↦ ?_
    rw [Read.bind_hasValue_iff (P := True) fun _ ↦ Iff.rfl, and_true]
  rw [hvalues]
  simp only [asString_hasValue_iff, asUnsigned_hasValue_iff, Typed, InRange]
  constructor
  · rintro ⟨hsource, ⟨hrandom, hrandomFits⟩, hindex, ⟨hserver, hserverFits⟩, hclient, hclientFits⟩
    exact ⟨⟨hsource, hrandom, hindex, hserver, hclient⟩, hrandomFits, hserverFits, hclientFits⟩
  · rintro ⟨⟨hsource, hrandom, hindex, hserver, hclient⟩, hrandomFits, hserverFits, hclientFits⟩
    exact ⟨hsource, ⟨hrandom, hrandomFits⟩, hindex, ⟨hserver, hserverFits⟩, hclient, hclientFits⟩

/-- A directory that is there already, is created, or cannot be. -/
inductive Made
  | present
  | created
  | failed

/-- What the calls of one turn return. A Redis call that throws its own error is `none`, or `false`
where its result is not looked at; `listing` ends where `readFileSize` stops reading. -/
structure Env (cfg : Config) where
  createTime : Option (Option ℕ)
  secretDir : Bool
  runningDir : Made
  tmpDir : Made
  waitingDir : Made
  listing : List Entry
  score : Str → Option ℕ
  rand : ℕ → Rand
  file : Str → Bytes
  opens : Opens
  dir : RunDir
  sized : dir.Sized cfg
  waiting : Option Bytes
  timeStamp : ℕ
  zaddTime : Option ℕ
  zaddCount : Bool
  del : Bool

def serverName : Str := "server".toList

def savePath (source sub : Str) : Str := "/home/wangkc/shannonnet/".toList ++ source ++ sub

namespace Received

variable (m : Received)

def secretSavePath : Str :=
  Path.join (savePath m.source "/secrets/".toList)
    ("node_".toList ++ Nat.toDigits 10 m.serverNodeId ++ '_' :: Nat.toDigits 10 m.clientNodeId)

def runningSavePath : Str := Path.join (savePath m.source "/running/".toList) m.saveIdx

def waitingSavePath : Str := Path.join (savePath m.source "/waiting/".toList) m.saveIdx

def saveFile : Str := Path.join m.runningSavePath (m.saveIdx ++ ".bin".toList)

def waitingSaveFile : Str := Path.join m.waitingSavePath (m.saveIdx ++ "_waited.bin".toList)

end Received

def createDirectories : List (Str × Made) → Bool × List Effect
  | [] => (true, [])
  | (_, .present) :: dirs => createDirectories dirs
  | (path, .created) :: dirs =>
    let r := createDirectories dirs
    (r.1, .createDirectory path :: r.2)
  | (_, .failed) :: _ => (false, [])

variable {cfg : Config}

def publish (env : Env cfg) (m : Received) : List Effect :=
  (if m.source = serverName then env.waiting.toList.map (.saveWaiting m.waitingSaveFile) else []) ++
    match env.zaddTime with
    | none => []
    | some scoreTime =>
      .zaddTime m.source m.saveIdx env.timeStamp ::
        if scoreTime = 0 ∨ !env.zaddCount then []
        else .zaddCount m.source m.saveIdx ::
          if m.source = serverName ∧ env.del then [.del m.saveIdx] else []

def generateKeys (env : Env cfg) (fuel : ℕ) (m : Received) : Exit × List Effect :=
  let rand := env.rand m.randomNum
  let pathAndSizeVec := readFileSize m.secretSavePath env.listing env.score
  if pathAndSizeVec = [] then (.loopHead, [])
  else
    match selectFiles cfg rand fuel pathAndSizeVec with
    | none => (.drawing, [])
    | some s =>
      match generateKey cfg env.opens (s.1.map fun p ↦ some (env.file p.1))
        (generateRandom cfg rand s.2 s.1.length) env.dir with
      | none => (.undefined, [])
      | some (d, saved) =>
        (.loopHead, .stages m.runningSavePath d ::
          if saved then .saveRunning m.saveFile d.bin :: publish env m else [])

def process (env : Env cfg) (fuel : ℕ) (m : Received) : Exit × List Effect :=
  match env.createTime with
  | some none =>
    if env.secretDir then
      match createDirectories [(m.runningSavePath, env.runningDir),
        (Path.join m.runningSavePath "tmp".toList, env.tmpDir),
        (m.waitingSavePath, env.waitingDir)] with
      | (true, log) =>
        let r := generateKeys env fuel m
        (r.1, log ++ r.2)
      | (false, log) => (.loopHead, log)
    else (.loopHead, [])
  | _ => (.loopHead, [])

/-- One turn of the loop over the message `rpop` returns; `parse` throws where it is `none`. -/
def iterate (parse : Bytes → Option Json) (env : Env cfg) (fuel : ℕ) (redisVal : Bytes) :
    Exit × List Effect :=
  match parse redisVal with
  | none => (.escaped, [])
  | some jsonVal =>
    match fields jsonVal with
    | none => (.loopHead, [])
    | some v =>
      match v.receive with
      | .mismatch => (.escaped, [])
      | .undefined => (.undefined, [])
      | .value m => process env fuel m

section Survival

/-- The turn gets as far as the files of the node. -/
structure Reaches (env : Env cfg) (m : Received) : Prop where
  createTime : env.createTime = some none
  secretDir : env.secretDir = true
  runningDir : env.runningDir ≠ .failed
  tmpDir : env.tmpDir ≠ .failed
  waitingDir : env.waitingDir ≠ .failed
  files : readFileSize m.secretSavePath env.listing env.score ≠ []

/-- The stream selects files at last, and the stages find every `tmp` key of theirs. -/
def Completes (env : Env cfg) (m : Received) : Prop :=
  ∃ fuel s, selectFiles cfg (env.rand m.randomNum) fuel
      (readFileSize m.secretSavePath env.listing env.score) = some s ∧
    ∀ f < s.1.length, ∀ t < cfg.threadNum, TmpFound env.opens env.dir f t

/-- A message of the format: an object with the five fields in their types. -/
def WellTyped (parse : Bytes → Option Json) (redisVal : Bytes) : Prop :=
  ∃ jsonVal v, parse redisVal = some jsonVal ∧ fields jsonVal = some v ∧ v.Typed

theorem selectFiles_ne_nil {α : Type} {rand : Rand} {fuel : ℕ} {files : List α}
    {s : List α × ℕ} (hfiles : files ≠ []) (h : selectFiles cfg rand fuel files = some s) :
    s.1 ≠ [] := by
  rw [selectFiles_eq] at h
  obtain ⟨r, hr, rfl⟩ := Option.map_eq_some_iff.mp h
  obtain ⟨hlt, -, hlen, -⟩ := selectPositions_spec (List.length_pos_iff.mpr hfiles) hr
  obtain ⟨p, hp⟩ := List.exists_mem_of_length_pos hlen
  exact List.ne_nil_of_mem (List.mem_filterMap.mpr ⟨p, hp, List.getElem?_eq_getElem (hlt p hp)⟩)

theorem generateKeys_loopHead_iff {env : Env cfg} {fuel : ℕ} {m : Received}
    (hfiles : readFileSize m.secretSavePath env.listing env.score ≠ []) :
    (generateKeys env fuel m).1 = .loopHead ↔
      ∃ s, selectFiles cfg (env.rand m.randomNum) fuel
          (readFileSize m.secretSavePath env.listing env.score) = some s ∧
        ∀ f < s.1.length, ∀ t < cfg.threadNum, TmpFound env.opens env.dir f t := by
  simp only [generateKeys, if_neg hfiles]
  cases hs : selectFiles cfg (env.rand m.randomNum) fuel
      (readFileSize m.secretSavePath env.listing env.score) with
  | none => simp
  | some s =>
    have hpos := List.length_pos_iff.mpr (selectFiles_ne_nil hfiles hs)
    have hkey : (generateKey cfg env.opens ((s.1.map fun p ↦ env.file p.1).map some)
        (generateRandom cfg (env.rand m.randomNum) s.2 s.1.length) env.dir).isSome ↔ _ :=
      generateKey_isSome_iff (by
        rw [List.length_map]
        exact fun _ hf _ ht ↦ generateRandom_row cfg _ _ hf ht)
      (by rwa [List.length_map]) env.sized
    rw [List.map_map, List.length_map] at hkey
    simp only [Option.some.injEq, exists_eq_left']
    rw [← hkey]
    cases hkeys : generateKey cfg env.opens (s.1.map fun p ↦ some (env.file p.1))
        (generateRandom cfg (env.rand m.randomNum) s.2 s.1.length) env.dir with
    | none => simp [Function.comp_def, hkeys]
    | some r => simp [Function.comp_def, hkeys]

theorem createDirectories_fst (dirs : List (Str × Made)) :
    (createDirectories dirs).1 = true ↔ ∀ p ∈ dirs, p.2 ≠ .failed := by
  induction dirs with
  | nil => simp [createDirectories]
  | cons p dirs ih =>
    obtain ⟨path, made⟩ := p
    rw [List.forall_mem_cons]
    cases made with
    | present => simpa [createDirectories] using ih
    | created => simpa [createDirectories] using ih
    | failed => simp [createDirectories]

theorem process_loopHead_iff {env : Env cfg} {m : Received} :
    (∃ fuel, (process env fuel m).1 = .loopHead) ↔ (Reaches env m → Completes env m) := by
  have hdirs := createDirectories_fst [(m.runningSavePath, env.runningDir),
    (Path.join m.runningSavePath "tmp".toList, env.tmpDir), (m.waitingSavePath, env.waitingDir)]
  simp only [List.forall_mem_cons, List.not_mem_nil, false_imp_iff, implies_true, and_true] at hdirs
  by_cases hreach : Reaches env m
  · have hmade := hdirs.mpr ⟨hreach.runningDir, hreach.tmpDir, hreach.waitingDir⟩
    have hprocess (fuel : ℕ) : (process env fuel m).1 = (generateKeys env fuel m).1 := by
      simp only [process, hreach.createTime, hreach.secretDir, if_true]
      split
      · rfl
      · rename_i h
        rw [h] at hmade
        cases hmade
    simp only [hprocess, generateKeys_loopHead_iff hreach.files, hreach, true_imp_iff]
    rfl
  · refine iff_of_true ⟨0, ?_⟩ fun h ↦ absurd h hreach
    unfold process
    split
    · rename_i htime
      split_ifs with hsecret
      · split
        · rename_i h
          rw [h] at hdirs
          have hfiles : readFileSize m.secretSavePath env.listing env.score = [] := by
            by_contra hfiles
            obtain ⟨h₁, h₂, h₃⟩ := hdirs.mp rfl
            exact hreach ⟨htime, hsecret, h₁, h₂, h₃, hfiles⟩
          simp [generateKeys, hfiles]
        · rfl
      · rfl
    · rfl

/-- Over every text a turn returns to the head of the loop, and leaves Redis and the files alone
when the text is no message of the format, if and only if the text parses, no field is missing or
all five convert, and a message that gets as far as the files of its node is completed. -/
theorem survives_iff (parse : Bytes → Option Json) (env : Env cfg) (redisVal : Bytes) :
    ((∃ fuel, (iterate parse env fuel redisVal).1 = .loopHead) ∧
      (¬WellTyped parse redisVal → ∀ fuel, (iterate parse env fuel redisVal).2 = [])) ↔
      ∃ jsonVal, parse redisVal = some jsonVal ∧ ∀ v, fields jsonVal = some v →
        v.Typed ∧ v.InRange ∧ ∀ m, v.receive = .value m → Reaches env m → Completes env m := by
  cases hparse : parse redisVal with
  | none => simp [iterate, hparse]
  | some jsonVal =>
    simp only [iterate, hparse, Option.some.injEq, exists_eq_left']
    cases hfields : fields jsonVal with
    | none => simp
    | some v =>
      simp only [Option.some.injEq, forall_eq']
      have hvalue := v.receive_hasValue_iff
      cases hreceive : v.receive with
      | mismatch =>
        rw [hreceive] at hvalue
        exact iff_of_false (by simp) fun h ↦ hvalue.mpr ⟨h.1, h.2.1⟩
      | undefined =>
        rw [hreceive] at hvalue
        exact iff_of_false (by simp) fun h ↦ hvalue.mpr ⟨h.1, h.2.1⟩
      | value m =>
        rw [hreceive] at hvalue
        obtain ⟨htyped, hrange⟩ := hvalue.mp trivial
        have hwell : WellTyped parse redisVal := ⟨jsonVal, v, hparse, hfields, htyped⟩
        simp only [process_loopHead_iff, hwell, not_true, false_imp_iff, and_true, htyped, hrange,
          true_and, Read.value.injEq, forall_eq']

/-- A turn in which every call succeeds, on a node without secrets. -/
def quiet : Env Config.release where
  createTime := some none
  secretDir := true
  runningDir := .created
  tmpDir := .created
  waitingDir := .created
  listing := []
  score := fun _ ↦ none
  rand := fun _ ↦ id
  file := fun _ ↦ []
  opens := Opens.all
  dir := RunDir.empty
  sized := RunDir.empty_sized Config.release
  waiting := some []
  timeStamp := 1
  zaddTime := some 1
  zaddCount := true
  del := true

/-- A single opening brace, which does not parse. -/
theorem malformed_escapes :
    (iterate (fun _ ↦ none) quiet 0 [123]).1 = .escaped ∧
      ¬∃ fuel, (iterate (fun _ ↦ none) quiet fuel [123]).1 = .loopHead := by
  refine ⟨rfl, ?_⟩
  rintro ⟨fuel, h⟩
  cases h

end Survival

section Slots

def sourceName : Source → Str
  | .server => serverName
  | .client => "client".toList

/-- What a write of a turn over a message of `source` does to the slot of its index. -/
def Effect.apply (source : Source) (s : Slot) : Effect → Slot
  | createDirectory _ => s
  | stages _ _ => s
  | saveRunning _ key => { s with running := Function.update s.running source key }
  | saveWaiting _ content => { s with waiting := some content }
  | zaddTime _ _ timeStamp => { s with time := Function.update s.time source (some timeStamp) }
  | zaddCount _ _ => { s with count := Function.update s.count source (some 0) }
  | del _ => { s with lock := none }

variable {source : Source} {s : Slot} {env : Env cfg} {m : Received} {fuel : ℕ}

theorem createDirectories_slot (source : Source) (s : Slot) (dirs : List (Str × Made)) :
    (createDirectories dirs).2.foldl (Effect.apply source) s = s := by
  induction dirs with
  | nil => rfl
  | cons p dirs ih =>
    obtain ⟨path, made⟩ := p
    cases made with
    | present => exact ih
    | created => exact ih
    | failed => rfl

theorem sourceName_eq_iff : sourceName source = serverName ↔ source = .server := by
  cases source with
  | server => exact iff_of_true rfl rfl
  | client => exact iff_of_false (by decide) (by decide)

theorem iteration_generated {o : Outcome} (h : (s.time source).isSome) :
    iteration source o s = s := by
  simp [iteration, Pc.step, h]

theorem iteration_stopped {o : Outcome} (h : o.running = none) : iteration source o s = s := by
  by_cases htime : (s.time source).isSome
  · exact iteration_generated htime
  · simp [iteration, Pc.step, htime, h]

theorem publish_slot {key : Bytes} (hsource : m.source = sourceName source)
    (htime : s.time source = none) (hzadd : env.zaddTime = some 1) (hcount : env.zaddCount = true)
    (hdel : env.del = true) :
    (publish env m).foldl (Effect.apply source)
        { s with running := Function.update s.running source (some key) } =
      iteration source ⟨some key, env.waiting, env.timeStamp⟩ s := by
  simp only [publish, hsource, hzadd, sourceName_eq_iff]
  cases source with
  | server =>
    cases hw : env.waiting with
    | none => simp [iteration, Pc.step, Effect.apply, htime, hcount, hdel]
    | some content => simp [iteration, Pc.step, Effect.apply, htime, hcount, hdel]
  | client => simp [iteration, Pc.step, Effect.apply, htime, hcount]

theorem generateKey_saved {opens : Opens} {secrets : List (Option Bytes)}
    {randomVec : List (List ℕ)} {d d' : RunDir}
    (h : generateKey cfg opens secrets randomVec d = some (d', true)) :
    ∃ key, d'.bin = some key := by
  obtain ⟨d₁, -, h⟩ := Option.bind_eq_some_iff.mp h
  obtain ⟨⟨key, d₂⟩, -, h⟩ := Option.map_eq_some_iff.mp h
  split_ifs at h
  · cases h
    exact ⟨key, rfl⟩
  · cases h

/-- A turn whose Redis calls succeed changes the slot of its index as the steps of an iteration
do. -/
theorem process_slot (hsource : m.source = sourceName source)
    (htime : env.createTime = some (s.time source)) (hzadd : env.zaddTime = some 1)
    (hcount : env.zaddCount = true) (hdel : env.del = true) :
    ∃ key, (process env fuel m).2.foldl (Effect.apply source) s =
      iteration source ⟨key, env.waiting, env.timeStamp⟩ s := by
  have hkeys (hnone : s.time source = none) : ∃ key, (generateKeys env fuel m).2.foldl
      (Effect.apply source) s = iteration source ⟨key, env.waiting, env.timeStamp⟩ s := by
    simp only [generateKeys]
    split_ifs
    · exact ⟨none, (iteration_stopped rfl).symm⟩
    split
    · exact ⟨none, (iteration_stopped rfl).symm⟩
    split
    · exact ⟨none, (iteration_stopped rfl).symm⟩
    · rename_i d saved hgenerate
      cases saved with
      | false => exact ⟨none, (iteration_stopped rfl).symm⟩
      | true =>
        obtain ⟨key, hkey⟩ := generateKey_saved hgenerate
        refine ⟨some key, ?_⟩
        rw [← publish_slot hsource hnone hzadd hcount hdel, hkey]
        rfl
  unfold process
  rw [htime]
  cases hnone : s.time source with
  | some timeStamp => exact ⟨none, (iteration_stopped rfl).symm⟩
  | none =>
    dsimp only
    split_ifs
    · have hdirs := createDirectories_slot source s
        [(m.runningSavePath, env.runningDir),
          (Path.join m.runningSavePath "tmp".toList, env.tmpDir),
          (m.waitingSavePath, env.waitingDir)]
      split
      · rename_i log hlog
        rw [hlog] at hdirs
        rw [List.foldl_append, hdirs]
        exact hkeys hnone
      · rename_i log hlog
        rw [hlog] at hdirs
        exact ⟨none, hdirs.trans (iteration_stopped rfl).symm⟩
    · exact ⟨none, (iteration_stopped rfl).symm⟩

end Slots

end ShannonNet.Generator.Queue
