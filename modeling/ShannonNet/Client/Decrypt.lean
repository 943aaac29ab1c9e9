import ShannonNet.Library.Crc
import ShannonNet.Server.GetData
import ShannonNet.Server.ResultReport

namespace ShannonNet.Client

open Library.Bitset Library.Buffer Library.Crc Library.Loop LWE Server Utils

variable (cfg : Config)

def crcLen : ℕ := 10

def crcStr (crc32Val : UInt32) : Bytes := decimal crcLen crc32Val.toNat

theorem crcStr_length (crc32Val : UInt32) : (crcStr crc32Val).length = crcLen :=
  decimal_length (by decide) (crc32Val.toNat_lt.trans (by decide))

/-- A waiting secret: its last `CRC_LEN` bytes are the printed checksum of the rest. -/
structure WaitingSecret (crc32c : Bytes → UInt32) where
  bytes : Bytes
  length_eq : bytes.length = cfg.secretASize
  crc : bytes.drop (cfg.secretASize - crcLen) =
    crcStr (crc32c (bytes.take (cfg.secretASize - crcLen)))

/-- What `LWE::generateSecret` writes to `outFile` for the random bytes `mat`. -/
def generateSecret (crc32c : Bytes → UInt32) (mat : Bytes) (hmat : mat.length = cfg.secretASize) :
    WaitingSecret cfg crc32c :=
  let data := mat.take (cfg.secretASize - crcLen)
  have hdata : data.length = cfg.secretASize - crcLen := by
    rw [List.length_take]
    omega
  { bytes := data ++ crcStr (crc32c data)
    length_eq := by
      rw [List.length_append, hdata, crcStr_length]
      exact Nat.sub_add_cancel cfg.crcLen_le
    crc := by rw [List.drop_left' hdata, List.take_left' hdata] }

/-- `decryptSecretsGPU` from the record at `offset`; `none` is a failed `LOG_ASSERT` or an iterator
past the end. -/
def decryptSecretsGPU (data : List SecretDto) (offset runningThreadId : ℕ)
    (A : Matrix (Fin cfg.m) (Fin cfg.m) UInt8) : Option (List Bytes) :=
  let currentNum :=
    if runningThreadId ≠ cfg.runningThreadNum - 1 then cfg.eachNum / cfg.runningThreadNum
    else cfg.eachNum - runningThreadId * cfg.eachNum / cfg.runningThreadNum
  (List.range currentNum).mapM fun k ↦ data[offset + k]?.bind fun secret ↦
    let secretData := Gpu.decryptGPU cfg.q A secret.secretS secret.secretB
    if secret.secretS ≠ [] ∧ secret.secretB ≠ [] ∧ secretData ≠ [] then some secretData else none

def decryptPiece (running : Bytes) (data : List SecretDto) : Option Bytes :=
  ((List.range cfg.runningThreadNum).mapM fun runningThreadId ↦
    decryptSecretsGPU cfg data (cfg.eachNum / cfg.runningThreadNum * runningThreadId)
      runningThreadId
      (secretA cfg running)).map fun vec ↦ vec.flatten.flatten

section Piece

variable {cfg}

variable (cfg) in
def pieceOf (content : Bytes) (num : ℕ) : Bytes :=
  readAt content (num * cfg.pieceSize) cfg.pieceSize

theorem pieceOf_room {content : Bytes} {num : ℕ} (hcontent : content.length = cfg.secretASize)
    (hnum : num < cfg.progress) : num * cfg.pieceSize + cfg.pieceSize ≤ content.length := by
  rw [hcontent, ← cfg.progress_mul, ← Nat.succ_mul]
  exact Nat.mul_le_mul_right _ hnum

theorem decrypt_cipher {A : Matrix (Fin cfg.m) (Fin cfg.m) UInt8} {data : Bytes}
    (coins : ℕ → Coins cfg) {i : ℕ} (hdata : data.length = cfg.sLen * cfg.eachNum)
    (hi : i < cfg.eachNum) :
    Gpu.decryptGPU cfg.q A (cipher cfg A data coins i).1 (cipher cfg A data coins i).2 =
        readAt data (i * cfg.sLen) cfg.sLen ∧
      (cipher cfg A data coins i).1 ≠ [] ∧ (cipher cfg A data coins i).2 ≠ [] := by
  have hlen := message_length hdata hi
  have hpos := cfg.sLen_pos
  have hq := cfg.q_le
  have hm : 0 < cfg.m := Nat.mul_pos hpos (by norm_num)
  have hne : readAt data (i * cfg.sLen) cfg.sLen ≠ [] := by
    rw [← List.length_pos_iff, hlen]
    exact hpos
  have hmessage : (readAt data (i * cfg.sLen) cfg.sLen).length = cfg.m / 8 := by
    rw [hlen, Config.m, Nat.mul_div_cancel _ (by norm_num)]
  obtain ⟨out, hout, hdec⟩ := Gpu.recover (by omega) ⟨cfg.sLen, Nat.mul_comm _ _⟩ A hmessage hne
    (coins i).s (coins i).e
  obtain rfl := Option.some.inj ((encryptGPU_eq hdata hi).symm.trans hout)
  obtain ⟨h1, h2⟩ := Gpu.encryptGPU_length hout
  refine ⟨hdec, ?_, ?_⟩
  · rw [← List.length_pos_iff, h1]
    exact hm
  · rw [← List.length_pos_iff, h2]
    exact hm

theorem decryptSecretsGPU_eq {running content : Bytes} {progress : ℕ} {coins : ℕ → Coins cfg}
    {r : ℕ}
    (hr : r < cfg.runningThreadNum) :
    let k := cfg.eachNum / cfg.runningThreadNum
    let data := load (cfg.sLen * cfg.eachNum) content (progress * cfg.sLen * cfg.eachNum)
    decryptSecretsGPU cfg ((List.range cfg.eachNum).map (record cfg running content progress coins))
      (k * r) r (secretA cfg running) =
        some ((List.range' (k * r) k).map fun i ↦ readAt data (i * cfg.sLen) cfg.sLen) := by
  intro k data
  have hmul : k * cfg.runningThreadNum = cfg.eachNum := Nat.div_mul_cancel cfg.runningThreadNum_dvd
  have hle : k * (r + 1) ≤ k * cfg.runningThreadNum := Nat.mul_le_mul_left _ hr
  rw [Nat.mul_succ] at hle
  have hcount : (if r ≠ cfg.runningThreadNum - 1 then k
      else cfg.eachNum - r * cfg.eachNum / cfg.runningThreadNum) = k := by
    split_ifs with hlast
    · rfl
    · have hshare : cfg.eachNum = k * r + k := by
        rw [← hmul, show cfg.runningThreadNum = r + 1 by omega, Nat.mul_succ]
      have hdiv : r * cfg.eachNum / cfg.runningThreadNum = k * r := by
        rw [Nat.mul_div_assoc _ cfg.runningThreadNum_dvd, Nat.mul_comm]
      rw [hdiv, hshare]
      exact Nat.add_sub_cancel_left _ _
  have hdata : data.length = cfg.sLen * cfg.eachNum := load_length _ _ _
  rw [decryptSecretsGPU, hcount, List.range'_eq_map_range, List.map_map]
  apply mapM_some
  intro j hj
  have hj := List.mem_range.mp hj
  obtain ⟨hdec, hs, hb⟩ := decrypt_cipher (A := secretA cfg running) coins hdata
    (show k * r + j < cfg.eachNum by omega)
  rw [List.getElem?_map, List.getElem?_range (by omega), Option.map_some, Option.bind_some, record,
    hdec]
  exact if_pos ⟨hs, hb, by
    rw [← List.length_pos_iff, message_length hdata (by omega)]
    exact cfg.sLen_pos⟩

/-- The client recovers the piece of the file that the request asked for. -/
theorem decryptPiece_pieceData {running content : Bytes} {r : GetData.Request cfg}
    (hcontent : content.length = cfg.secretASize) (hr : r.progress < cfg.progress) :
    decryptPiece cfg running (GetData.pieceData cfg running content r) =
      some (pieceOf cfg content r.progress) := by
  set data := load (cfg.sLen * cfg.eachNum) content (r.progress * cfg.sLen * cfg.eachNum) with hdata
  have hmul : cfg.eachNum / cfg.runningThreadNum * cfg.runningThreadNum = cfg.eachNum :=
    Nat.div_mul_cancel cfg.runningThreadNum_dvd
  have hpiece : data = pieceOf cfg content r.progress := by
    rw [hdata, Nat.mul_assoc, Nat.mul_comm cfg.sLen]
    exact load_eq_readAt (pieceOf_room hcontent hr)
  rw [decryptPiece, GetData.pieceData,
    mapM_some fun t ht ↦ decryptSecretsGPU_eq (List.mem_range.mp ht), Option.map_some,
    ← List.flatMap_def, ← List.map_flatMap, flatMap_range', hmul, ← List.flatMap_def]
  have hblocks := flatMap_readAt data 0 cfg.sLen cfg.eachNum
  simp only [Nat.zero_add] at hblocks
  rw [hblocks, hpiece, pieceOf, readAt_readAt (by rw [Nat.zero_add, Config.pieceSize])]
  rfl

def gathered (cfg : Config) (content : Bytes) (num : ℕ) : Bytes :=
  content.take (num * cfg.pieceSize) ++ zeros (content.length - num * cfg.pieceSize)

theorem gathered_zero {content : Bytes} (hcontent : content.length = cfg.secretASize) :
    gathered cfg content 0 = zeros cfg.secretASize := by
  rw [gathered, hcontent, Nat.zero_mul]
  rfl

theorem gathered_succ {content : Bytes} {num : ℕ} (hcontent : content.length = cfg.secretASize)
    (hnum : num < cfg.progress) :
    overlay (gathered cfg content num) (num * cfg.eachNum * cfg.sLen)
      (readAt (pieceOf cfg content num) 0 (cfg.eachNum * cfg.sLen)) =
        gathered cfg content (num + 1) := by
  have hpiece : readAt (pieceOf cfg content num) 0 (cfg.eachNum * cfg.sLen) =
      readAt content (num * cfg.pieceSize) cfg.pieceSize := by
    rw [pieceOf, readAt_readAt (by rw [Nat.zero_add, Config.pieceSize])]
    rfl
  rw [hpiece, Nat.mul_assoc, gathered, gathered, Nat.succ_mul]
  exact overlay_take (pieceOf_room hcontent hnum)

theorem gathered_all {content : Bytes} (hcontent : content.length = cfg.secretASize) :
    gathered cfg content cfg.progress = content := by
  rw [gathered, cfg.progress_mul, ← hcontent, List.take_length, Nat.sub_self]
  exact List.append_nil content

theorem WaitingSecret.crc_eq {crc32c : Bytes → UInt32} (W : WaitingSecret cfg crc32c) :
    crcStr (crc32c (W.bytes.take (W.bytes.length - crcLen))) =
      readAt W.bytes (W.bytes.length - crcLen) crcLen := by
  have hcrc := W.crc
  have hlen : (W.bytes.drop (W.bytes.length - crcLen)).length ≤ crcLen := by
    rw [List.length_drop]
    omega
  rw [← W.length_eq] at hcrc
  rw [readAt, List.take_of_length_le hlen, hcrc]

end Piece

/-- Where `Decrypt::process` stands with one piece; `idle` before the piece is handed out. -/
inductive Process
  | idle
  | start
  | sent
  | append (secrets : Bytes)
  | done (flag : Bool)

/-- No thread runs `process`, or its future is ready. -/
def Process.over : Process → Bool
  | idle => true
  | done _ => true
  | _ => false

/-- One step of `process(progress)` with the tensor `secretA_`; `request` is where the request
stands that it has sent. -/
def Process.step (secretA : Option Bytes) (progress : ℕ) (request : GetData.Pc) :
    Process → Slot → Option (Process × Slot)
  | start, s => some (sent, s)
  | sent, s =>
    match request with
    | .done res =>
      if res.statusCode ≠ 200 then some (done false, s)
      else (secretA.bind fun running ↦ decryptPiece cfg running res.data).map fun secrets ↦
        (append secrets, s)
    | _ => none
  | append secrets, s =>
    some (done true, { s with
      piece := Function.update s.piece progress (some ((s.piece progress).getD [] ++ secrets)) })
  | idle, _ => none
  | done _, _ => none

theorem Process.step_cases {cfg : Config} {secretA : Option Bytes} {num : ℕ}
    {request : GetData.Pc} {pr pr' : Process} {s s' : Slot}
    (h : pr.step cfg secretA num request s = some (pr', s')) :
    (pr = start ∧ pr' = sent ∧ s' = s) ∨
    (pr = sent ∧ (pr' = done false ∨ ∃ secrets, pr' = append secrets) ∧ s' = s) ∨
    ∃ secrets, pr = append secrets ∧ pr' = done true ∧ s' = { s with
      piece := Function.update s.piece num (some ((s.piece num).getD [] ++ secrets)) } := by
  cases pr with
  | start =>
    cases h
    exact .inl ⟨rfl, rfl, rfl⟩
  | sent =>
    cases request with
    | done res =>
      simp only [Process.step] at h
      split_ifs at h
      · cases h
        exact .inr (.inl ⟨rfl, .inl rfl, rfl⟩)
      · obtain ⟨secrets, -, h⟩ := Option.map_eq_some_iff.mp h
        cases h
        exact .inr (.inl ⟨rfl, .inr ⟨secrets, rfl⟩, rfl⟩)
    | _ => cases h
  | append secrets =>
    cases h
    exact .inr (.inr ⟨secrets, rfl, rfl, rfl⟩)
  | _ => cases h

theorem Process.step_slot {cfg : Config} {secretA : Option Bytes} {num : ℕ} {request : GetData.Pc}
    {pr pr' : Process} {s s' : Slot} (h : pr.step cfg secretA num request s = some (pr', s')) :
    ∃ file, s' = { s with piece := Function.update s.piece num file } := by
  have hself : s = { s with piece := Function.update s.piece num (s.piece num) } := by
    rw [Function.update_eq_self]
  obtain ⟨-, -, rfl⟩ | ⟨-, -, rfl⟩ | ⟨secrets, -, -, rfl⟩ := step_cases h
  · exact ⟨_, hself⟩
  · exact ⟨_, hself⟩
  · exact ⟨_, rfl⟩

inductive Gather
  | readPiece (num : ℕ) (bufferVec : Bytes)
  | removePiece (num : ℕ) (bufferVec : Bytes)
  | crc (bufferVec : Bytes)
  | report (bufferVec : Bytes) (isValid : ℕ) (pc : ResultReport.Pc)
  | openSecret (bufferVec : Bytes)
  | writeSecret (bufferVec : Bytes)
  | removeDir
  | done

/-- One step of `gather(progress)`, the steps of the server inside `resultReport` included. -/
def Gather.step (crc32c : Bytes → UInt32) (dir : ℕ → Bool) (nodeId progress : ℕ) :
    Gather → Slot → Option (Gather × Slot)
  | readPiece num bufferVec, s =>
    if num < progress then
      some (match s.piece num with
        | none => readPiece (num + 1) bufferVec
        | some file =>
          removePiece num (overlay bufferVec (num * cfg.eachNum * cfg.sLen)
            (readAt file 0 (cfg.eachNum * cfg.sLen))), s)
    else some (crc bufferVec, s)
  | removePiece num bufferVec, s =>
    some (readPiece (num + 1) bufferVec, { s with piece := Function.update s.piece num none })
  | crc bufferVec, s =>
    let crc32Send := readAt bufferVec (bufferVec.length - crcLen) crcLen
    let crc32Cal := crcStr (crc32c (bufferVec.take (bufferVec.length - crcLen)))
    some (report bufferVec (if crc32Cal ≠ crc32Send then nodeSecretInvalid else nodeSecretValid)
      .createTime, s)
  | report bufferVec isValid (.done _), s =>
    some (if isValid = nodeSecretValid then openSecret bufferVec else removeDir, s)
  | report bufferVec isValid pc, s =>
    (pc.step nodeId isValid s).map fun r ↦ (report bufferVec isValid r.1, r.2)
  | openSecret bufferVec, s =>
    some (writeSecret bufferVec, if dir nodeId then
      { s with secret := Function.update s.secret (.client, nodeId) (some []) } else s)
  | writeSecret bufferVec, s =>
    let file := (s.secret (.client, nodeId)).map fun file ↦ overlay file 0 bufferVec
    some (removeDir, { s with secret := Function.update s.secret (.client, nodeId) file })
  | removeDir, s => some (done, s)
  | done, _ => none

end ShannonNet.Client
