import ShannonNet.LWE.Gpu
import ShannonNet.Library.Buffer
import ShannonNet.Library.Loop
import ShannonNet.Store

namespace ShannonNet.Server

open Library.Bitset Library.Buffer Library.Loop LWE

variable (cfg : Config)

/-- What `torch::randint` fills the two tensors of one `encryptGPU` call with. -/
structure Coins where
  s : Fin cfg.m → Fin cfg.q
  e : Fin cfg.m → Fin (cfg.q / 2 - 1)

def Coins.release : Coins Config.release := ⟨fun _ ↦ ⟨0, by decide⟩, fun _ ↦ ⟨0, by decide⟩⟩

structure SecretDto where
  secretS : Bytes
  secretB : Bytes
  progress : ℕ

/-- `torch::from_file(runningSavePath_, false, M * N)`, reshaped to `{M, N}`. -/
def secretA (running : Bytes) : Matrix (Fin cfg.m) (Fin cfg.m) UInt8 :=
  fun i j ↦ running.getD (i * cfg.m + j) 0

/-- `encryptSecretsGPU`, with the coins of each record; `none` is a failed `LOG_ASSERT`. -/
def encryptSecretsGPU (data : Bytes) (index offset runningThreadId : ℕ)
    (A : Matrix (Fin cfg.m) (Fin cfg.m) UInt8) (coins : ℕ → Coins cfg) : Option (List SecretDto) :=
  let currentNum :=
    if runningThreadId ≠ cfg.runningThreadNum - 1 then offset + cfg.eachNum / cfg.runningThreadNum
    else cfg.eachNum
  (List.range' offset (currentNum - offset)).mapM fun i ↦
    (Gpu.encryptGPU cfg.q (readAt data (i * cfg.sLen) cfg.sLen) A (coins i).s (coins i).e).map
      fun vec ↦ ⟨vec.1, vec.2, (index + (i - offset)) % 2 ^ 32⟩

def encryptPiece (running content : Bytes) (progress : ℕ) (coins : ℕ → Coins cfg) :
    Option (List SecretDto) :=
  let bufferVec := load (cfg.sLen * cfg.eachNum) content
    (progress * cfg.sLen * cfg.eachNum % 2 ^ 32)
  let thread (runningThreadId : ℕ) :=
    let offset := cfg.eachNum / cfg.runningThreadNum * runningThreadId
    encryptSecretsGPU cfg bufferVec ((progress * cfg.eachNum + offset) % 2 ^ 32) offset
      runningThreadId (secretA cfg running) coins
  ((List.range cfg.runningThreadNum).mapM thread).map List.flatten

def cipher (A : Matrix (Fin cfg.m) (Fin cfg.m) UInt8) (data : Bytes) (coins : ℕ → Coins cfg)
    (i : ℕ) :
    Bytes × Bytes :=
  (Gpu.encryptGPU cfg.q (readAt data (i * cfg.sLen) cfg.sLen) A (coins i).s (coins i).e).getD
    ([], [])

def record (running content : Bytes) (progress : ℕ) (coins : ℕ → Coins cfg) (i : ℕ) : SecretDto :=
  let data := load (cfg.sLen * cfg.eachNum) content (progress * cfg.sLen * cfg.eachNum)
  let vec := cipher cfg (secretA cfg running) data coins i
  ⟨vec.1, vec.2, (progress * cfg.eachNum + i) % 2 ^ 32⟩

variable {cfg}

theorem message_length {data : Bytes} (hdata : data.length = cfg.sLen * cfg.eachNum) {i : ℕ}
    (hi : i < cfg.eachNum) : (readAt data (i * cfg.sLen) cfg.sLen).length = cfg.sLen := by
  apply readAt_length
  calc i * cfg.sLen + cfg.sLen = (i + 1) * cfg.sLen := (Nat.succ_mul _ _).symm
    _ ≤ cfg.eachNum * cfg.sLen := Nat.mul_le_mul_right _ hi
    _ = data.length := by rw [hdata, Nat.mul_comm]

theorem encryptGPU_eq {A : Matrix (Fin cfg.m) (Fin cfg.m) UInt8} {data : Bytes}
    {coins : ℕ → Coins cfg} {i : ℕ} (hdata : data.length = cfg.sLen * cfg.eachNum)
    (hi : i < cfg.eachNum) :
    Gpu.encryptGPU cfg.q (readAt data (i * cfg.sLen) cfg.sLen) A (coins i).s (coins i).e =
      some (cipher cfg A data coins i) := by
  have hne : (readAt data (i * cfg.sLen) cfg.sLen).length ≠ 0 := by
    rw [message_length hdata hi]
    exact Nat.pos_iff_ne_zero.mp cfg.sLen_pos
  rw [cipher, Gpu.encryptGPU, if_pos hne, Option.getD_some]

theorem encryptSecretsGPU_eq {data : Bytes} {A : Matrix (Fin cfg.m) (Fin cfg.m) UInt8}
    {coins : ℕ → Coins cfg} (hdata : data.length = cfg.sLen * cfg.eachNum) (index : ℕ) {r : ℕ}
    (hr : r < cfg.runningThreadNum) :
    let k := cfg.eachNum / cfg.runningThreadNum
    encryptSecretsGPU cfg data index (k * r) r A coins = some ((List.range' (k * r) k).map fun i ↦
      ⟨(cipher cfg A data coins i).1, (cipher cfg A data coins i).2,
        (index + (i - k * r)) % 2 ^ 32⟩) := by
  intro k
  have hmul : k * cfg.runningThreadNum = cfg.eachNum := Nat.div_mul_cancel cfg.runningThreadNum_dvd
  have hle : k * (r + 1) ≤ k * cfg.runningThreadNum := Nat.mul_le_mul_left _ hr
  rw [Nat.mul_succ] at hle
  have hcount : (if r ≠ cfg.runningThreadNum - 1 then k * r + k else cfg.eachNum) - k * r = k := by
    split_ifs with hlast
    · exact Nat.add_sub_cancel_left _ _
    · rw [← hmul, show cfg.runningThreadNum = r + 1 by omega, Nat.mul_succ]
      exact Nat.add_sub_cancel_left _ _
  rw [encryptSecretsGPU, hcount]
  apply mapM_some
  intro i hi
  have hi' := List.mem_range'_1.mp hi
  rw [encryptGPU_eq hdata (by omega), Option.map_some]

theorem flatMap_range' (k n : ℕ) :
    (List.range n).flatMap (fun r ↦ List.range' (k * r) k) = List.range (k * n) := by
  induction n with
  | zero => rfl
  | succ n ih =>
    rw [List.range_succ, List.flatMap_append, ih, List.flatMap_singleton, List.range_eq_range',
      List.range_eq_range', Nat.mul_succ, ← List.range'_append_1, Nat.zero_add]

theorem encryptPiece_eq {running content : Bytes} {progress : ℕ} {coins : ℕ → Coins cfg}
    (hp : progress < cfg.progress) : encryptPiece cfg running content progress coins =
      some ((List.range cfg.eachNum).map (record cfg running content progress coins)) := by
  have hmod : progress * cfg.sLen * cfg.eachNum % 2 ^ 32 = progress * cfg.sLen * cfg.eachNum := by
    refine Nat.mod_eq_of_lt (lt_of_le_of_lt ?_ cfg.secretASize_lt)
    rw [← cfg.progress_mul, Nat.mul_assoc, Nat.mul_comm cfg.sLen]
    exact Nat.mul_le_mul_right _ hp.le
  rw [encryptPiece, hmod]
  set data := load (cfg.sLen * cfg.eachNum) content (progress * cfg.sLen * cfg.eachNum) with hdata
  have hlen : data.length = cfg.sLen * cfg.eachNum := load_length _ _ _
  rw [mapM_some fun r hr ↦ encryptSecretsGPU_eq hlen _ (List.mem_range.mp hr), Option.map_some,
    ← List.flatMap_def]
  have hmul : cfg.eachNum / cfg.runningThreadNum * cfg.runningThreadNum = cfg.eachNum :=
    Nat.div_mul_cancel cfg.runningThreadNum_dvd
  rw [show List.range cfg.eachNum = (List.range cfg.runningThreadNum).flatMap
      (fun r ↦ List.range' (cfg.eachNum / cfg.runningThreadNum * r)
        (cfg.eachNum / cfg.runningThreadNum)) by rw [flatMap_range', hmul], List.map_flatMap]
  congr 1
  refine congrArg (List.flatMap · _) (funext fun r ↦ List.map_congr_left ?_)
  intro i hi
  have hi' := List.mem_range'_1.mp hi
  rw [record, ← hdata, Nat.mod_add_mod, Nat.add_assoc, Nat.add_sub_cancel' hi'.1]

end ShannonNet.Server
