import ShannonNet.Layout.Commands
import ShannonNet.Transfer.System

namespace ShannonNet.Layout

open Library.Buffer Library.Bitset Client Server Utils

theorem setKeptFile_self (s : Slot) (k : Kept) : setKeptFile s (keptFile s k) k = s := by
  cases k <;> simp [setKeptFile, keptFile, Function.update_eq_self]

/-- Reads a file, or finds out that it is not there. -/
def Prog.read {σ : Type} (k : Kept) (next : Option Bytes → σ) : Prog σ := .command (.file k id) next

theorem Prog.onSlot_read {σ : Type} (k : Kept) (next : Option Bytes → σ) (s : Slot) :
    (Prog.read k next).onSlot s = (next (keptFile s k), s) := by
  rw [read, onSlot, Cmd.onSlot, id, setKeptFile_self]

/-- The step of a party that can throw or be over. -/
def Prog.exec {σ : Type} (p : Prog (Option σ)) (s : Slot) : Option (σ × Slot) :=
  (p.onSlot s).1.map fun r ↦ (r, (p.onSlot s).2)

theorem Prog.exec_map {σ τ : Type} (f : σ → τ) (p : Prog (Option σ)) (s : Slot) :
    (p.map (Option.map f)).exec s = (p.exec s).map fun r ↦ (f r.1, r.2) := by
  rw [exec, onSlot_map, exec, Option.map_map, Option.map_map]
  rfl

def generatorProg (source : Source) (o : Generator.Outcome) : Generator.Pc → Prog Generator.Pc
  | .createTime =>
    .command (.zscore (.time source)) fun createTime ↦
      if createTime.isSome then .done else .saveRunning
  | .saveRunning =>
    match o.running with
    | none => .pure .done
    | some key =>
      .command (.file (.running source) fun _ ↦ some key) fun _ ↦
        if source = .server then .saveWaiting else .zaddTime
  | .saveWaiting =>
    .command (.file .waiting fun old ↦ o.waiting.orElse fun _ ↦ old) fun _ ↦ .zaddTime
  | .zaddTime =>
    .command (.zadd (.time source) o.timeStamp) fun added ↦
      if added = 0 then .done else .zaddCount
  | .zaddCount =>
    .command (.zadd (.count source) 0) fun _ ↦ if source = .server then .del else .done
  | .del => .command .del fun _ ↦ .done
  | .done => .pure .done

theorem generatorProg_step (source : Source) (o : Generator.Outcome) (pc : Generator.Pc)
    (s : Slot) : (generatorProg source o pc).onSlot s = pc.step source o s := by
  cases pc with
  | createTime =>
    cases htime : s.time source with
    | none => simp [generatorProg, Generator.Pc.step, Prog.onSlot, Cmd.onSlot, score, htime]
    | some time => simp [generatorProg, Generator.Pc.step, Prog.onSlot, Cmd.onSlot, score, htime]
  | saveRunning =>
    cases hrunning : o.running with
    | none => simp only [generatorProg, Generator.Pc.step, hrunning, Prog.onSlot]
    | some key =>
      simp only [generatorProg, Generator.Pc.step, hrunning, Prog.onSlot, Cmd.onSlot, setKeptFile]
  | zaddTime =>
    cases htime : s.time source with
    | none =>
      simp [generatorProg, Generator.Pc.step, Prog.onSlot, Cmd.onSlot, score, setScore, htime]
    | some time =>
      simp [generatorProg, Generator.Pc.step, Prog.onSlot, Cmd.onSlot, score, setScore, htime]
  | _ => rfl

section Server

variable {cfg : Config}

def getDataProg (dir : ℕ → Bool) (r : GetData.Request cfg) : GetData.Pc → Prog (Option GetData.Pc)
  | .createTime =>
    .command (.zscore (.time .server)) fun createTime ↦
      some (if createTime.isSome then .runningExists
        else GetData.error "index error or not generated")
  | .runningExists =>
    .read (.running .server) fun file ↦
      some (if file.isSome then .waitingExists else GetData.error "running secret not exist")
  | .waitingExists =>
    .read .waiting fun file ↦
      some (if file.isSome then .secretExists else GetData.error "waiting secret not exist")
  | .secretExists =>
    .read (.secret .server r.nodeId) fun file ↦
      some (if file.isSome then GetData.error "current secret exists" else .fromFile)
  | .fromFile => .read (.running .server) fun file ↦ file.map fun running ↦ .openWaiting running
  | .openWaiting running =>
    .read .waiting fun file ↦
      some (match file with
        | some content => .read running content
        | none => GetData.error "waiting secret open failed")
  | .read running content =>
    if r.progress ≥ cfg.progress then
      .command (.zscore (.count .server)) fun count ↦
        some (.done ⟨201, "secret progress error",
          [⟨[], [], (count.getD 0 + 2 ^ 32 - 1) % 2 ^ 32⟩]⟩)
    else .pure ((encryptPiece cfg running content r.progress r.coins).map fun data ↦ .zincrby data)
  | .zincrby data =>
    .command (.zincrby (.count .server)) fun redisProgress ↦
      some (if redisProgress ≥ cfg.progress then .isValid data else GetData.success data)
  | .isValid data =>
    .command (.zscore (.valid r.nodeId)) fun isValid ↦
      some (if isValid.getD 0 ≠ 0 then GetData.error "current secret have been added"
        else .moveRead data)
  | .moveRead data =>
    .read .waiting fun file ↦ some (.moveOpen data (load cfg.secretASize (file.getD []) 0))
  | .moveOpen data moveBufferVec =>
    if dir r.nodeId then
      .command (.file (.secret .server r.nodeId) fun _ ↦ some []) fun _ ↦
        some (.moveWrite data moveBufferVec)
    else .pure (some (.moveWrite data moveBufferVec))
  | .moveWrite data moveBufferVec =>
    .command (.file (.secret .server r.nodeId) fun old ↦
      old.map fun file ↦ overlay file 0 moveBufferVec) fun _ ↦ some (.moveZadd data)
  | .moveZadd data =>
    .command (.zadd (.valid r.nodeId) nodeSecretInvalid) fun _ ↦ some (.moveRemove data)
  | .moveRemove data =>
    .command (.file .waiting fun _ ↦ none) fun _ ↦ some (GetData.success data)
  | .done _ => .pure none

theorem getDataProg_step (dir : ℕ → Bool) (r : GetData.Request cfg) (pc : GetData.Pc) (s : Slot) :
    (getDataProg dir r pc).exec s = pc.step dir r s := by
  cases pc with
  | read running content =>
    simp only [getDataProg, GetData.Pc.step]
    split_ifs with hprogress
    · rfl
    · exact Option.map_map ..
  | moveOpen data moveBufferVec =>
    simp only [getDataProg, GetData.Pc.step]
    split_ifs with hdir
    · rfl
    · rfl
  | createTime => rfl
  | zincrby data => rfl
  | isValid data => rfl
  | moveWrite data moveBufferVec => rfl
  | moveZadd data => rfl
  | moveRemove data => rfl
  | done res => rfl
  | fromFile =>
    rw [getDataProg, Prog.exec, Prog.onSlot_read]
    exact Option.map_map ..
  | _ =>
    simp only [getDataProg, Prog.exec, Prog.onSlot_read]
    rfl

def resultReportProg (nodeId isValid : ℕ) : ResultReport.Pc → Prog (Option ResultReport.Pc)
  | .createTime =>
    .command (.zscore (.time .server)) fun createTime ↦
      some (if createTime.isSome then .zadd else .done ⟨500, "index error or not generated", ()⟩)
  | .zadd =>
    if isValid = nodeSecretValid then
      .command (.zadd (.valid nodeId) nodeSecretValid) fun _ ↦
        some (.done ⟨200, "valid success", ()⟩)
    else .command (.zadd (.valid nodeId) nodeSecretInvalid) fun _ ↦ some .secretExists
  | .secretExists =>
    .read (.secret .server nodeId) fun file ↦
      some (if file.isSome then .remove else .done ⟨500, "current secret not exist", ()⟩)
  | .remove =>
    .command (.file (.secret .server nodeId) fun _ ↦ none) fun _ ↦
      some (.done ⟨200, "success", ()⟩)
  | .done _ => .pure none

theorem resultReportProg_step (nodeId isValid : ℕ) (pc : ResultReport.Pc) (s : Slot) :
    (resultReportProg nodeId isValid pc).exec s = pc.step nodeId isValid s := by
  cases pc with
  | zadd =>
    simp only [resultReportProg, ResultReport.Pc.step]
    split_ifs with hvalid
    · rfl
    · rfl
  | secretExists =>
    simp only [resultReportProg, Prog.exec, Prog.onSlot_read]
    rfl
  | _ => rfl

end Server

section Client

variable {cfg : Config}

variable (cfg) in
def pullProg : Pull → Prog (Option (Pull × Option ℕ))
  | .serverTime =>
    .command (.zscore (.time .server)) fun createTime ↦
      some (.clientTime (createTime.getD 0), none)
  | .clientTime serverCreateTime =>
    .command (.zscore (.time .client)) fun createTime ↦
      some (if serverCreateTime ≠ 0 ∧ createTime.getD 0 ≠ 0 then .runningExists else .serverTime,
        none)
  | .runningExists =>
    .read (.running .client) fun file ↦
      some (if file.isSome then .pull else .serverTime, none)
  | .pull =>
    .command (.zincrby (.count .client)) fun progress ↦
      some (if progress ≥ cfg.progress then .gather progress else .pull,
        if progress ≤ cfg.progress then some (progress - 1) else none)
  | .gather _ => .pure none

theorem pullProg_step (loop : Pull) (s : Slot) :
    ((pullProg cfg loop).exec s).map (fun r ↦ (r.1.1, r.2, r.1.2)) = loop.step cfg s := by
  cases loop with
  | runningExists =>
    simp only [pullProg, Prog.exec, Prog.onSlot_read]
    rfl
  | _ => rfl

variable (cfg) in
def processProg (secretA : Option Bytes) (progress : ℕ) (request : GetData.Pc) :
    Process → Prog (Option Process)
  | .start => .pure (some .sent)
  | .sent =>
    match request with
    | .done res =>
      if res.statusCode ≠ 200 then .pure (some (.done false))
      else .pure ((secretA.bind fun running ↦ decryptPiece cfg running res.data).map fun secrets ↦
        .append secrets)
    | _ => .pure none
  | .append secrets =>
    .command (.file (.piece progress) fun old ↦ some (old.getD [] ++ secrets)) fun _ ↦
      some (.done true)
  | .idle => .pure none
  | .done _ => .pure none

theorem processProg_step (secretA : Option Bytes) (progress : ℕ) (request : GetData.Pc)
    (pr : Process) (s : Slot) :
    (processProg cfg secretA progress request pr).exec s =
      pr.step cfg secretA progress request s := by
  cases pr with
  | sent =>
    cases request with
    | done res =>
      simp only [processProg, Process.step]
      split_ifs with hcode
      · rfl
      · exact Option.map_map ..
    | _ => rfl
  | _ => rfl

variable (cfg) in
def gatherProg (crc32c : Bytes → UInt32) (dir : ℕ → Bool) (nodeId progress : ℕ) :
    Gather → Prog (Option Gather)
  | .readPiece num bufferVec =>
    if num < progress then
      .read (.piece num) fun file ↦
        some (match file with
          | none => .readPiece (num + 1) bufferVec
          | some file =>
            .removePiece num (overlay bufferVec (num * cfg.eachNum * cfg.sLen)
              (readAt file 0 (cfg.eachNum * cfg.sLen))))
    else .pure (some (.crc bufferVec))
  | .removePiece num bufferVec =>
    .command (.file (.piece num) fun _ ↦ none) fun _ ↦ some (.readPiece (num + 1) bufferVec)
  | .crc bufferVec =>
    let crc32Send := readAt bufferVec (bufferVec.length - crcLen) crcLen
    let crc32Cal := crcStr (crc32c (bufferVec.take (bufferVec.length - crcLen)))
    .pure (some (.report bufferVec
      (if crc32Cal ≠ crc32Send then nodeSecretInvalid else nodeSecretValid) .createTime))
  | .report bufferVec isValid (.done _) =>
    .pure (some (if isValid = nodeSecretValid then .openSecret bufferVec else .removeDir))
  | .report bufferVec isValid pc =>
    (resultReportProg nodeId isValid pc).map (Option.map fun pc ↦ .report bufferVec isValid pc)
  | .openSecret bufferVec =>
    if dir nodeId then
      .command (.file (.secret .client nodeId) fun _ ↦ some []) fun _ ↦
        some (.writeSecret bufferVec)
    else .pure (some (.writeSecret bufferVec))
  | .writeSecret bufferVec =>
    .command (.file (.secret .client nodeId) fun old ↦
      old.map fun file ↦ overlay file 0 bufferVec) fun _ ↦ some .removeDir
  | .removeDir => .pure (some .done)
  | .done => .pure none

theorem gatherProg_step (crc32c : Bytes → UInt32) (dir : ℕ → Bool) (nodeId progress : ℕ)
    (loc : Gather) (s : Slot) :
    (gatherProg cfg crc32c dir nodeId progress loc).exec s =
      loc.step cfg crc32c dir nodeId progress s := by
  cases loc with
  | readPiece num bufferVec =>
    simp only [gatherProg, Gather.step]
    split_ifs with hnum
    · rw [Prog.exec, Prog.onSlot_read]
      rfl
    · rfl
  | report bufferVec isValid pc =>
    cases pc with
    | done res => rfl
    | _ =>
      simp only [gatherProg, Gather.step, Prog.exec_map, resultReportProg_step]
  | openSecret bufferVec =>
    simp only [gatherProg, Gather.step]
    split_ifs with hdir
    · rfl
    · rfl
  | _ => rfl

end Client

end ShannonNet.Layout
