import Mathlib.Tactic.NormNum

namespace ShannonNet

/-- The constants of `config.h` the protocol computes with, under the relations the code relies
on between them. `BIT` is 8 and `CRC_LEN` is 10 throughout. -/
structure Config where
  secretASize : ℕ
  sLen : ℕ
  q : ℕ
  eachNum : ℕ
  runningThreadNum : ℕ
  threadNum : ℕ
  fileNum : ℕ
  readLen : ℕ
  readNum : ℕ
  secretASize_lt : secretASize < 2 ^ 32
  crcLen_le : 10 ≤ secretASize
  piece_dvd : eachNum * sLen ∣ secretASize
  sLen_pos : 0 < sLen
  q_le : q ≤ 128
  runningThreadNum_pos : 0 < runningThreadNum
  runningThreadNum_dvd : runningThreadNum ∣ eachNum
  threadNum_pos : 0 < threadNum
  fileNum_pos : 0 < fileNum
  readLen_ge : 8 ≤ readLen
  readLen_le : readLen ≤ secretASize
  readLen_lt : readLen / 8 < secretASize / threadNum
  readNum_pos : 0 < readNum
  bit_dvd_readNum : 8 ∣ readNum
  group_dvd : readNum / 8 * threadNum ∣ (sLen * 8) * (sLen * 8)

namespace Config

/-- The values of a release build, `SN_DEBUG = 0`. -/
def release : Config where
  secretASize := 1024 * 1024 * 1024
  sLen := 1024
  q := 97
  eachNum := 1024
  runningThreadNum := 2
  threadNum := 2
  fileNum := 8
  readLen := 128
  readNum := 1024
  secretASize_lt := by norm_num
  crcLen_le := by norm_num
  piece_dvd := by norm_num
  sLen_pos := by norm_num
  q_le := by norm_num
  runningThreadNum_pos := by norm_num
  runningThreadNum_dvd := by norm_num
  threadNum_pos := by norm_num
  fileNum_pos := by norm_num
  readLen_ge := by norm_num
  readLen_le := by norm_num
  readLen_lt := by norm_num
  readNum_pos := by norm_num
  bit_dvd_readNum := by norm_num
  group_dvd := by norm_num

/-- With `SN_DEBUG` a waiting secret shrinks to `DEBUG_SECRET_A_SIZE`. -/
def debug : Config :=
  { release with
    secretASize := 16 * 1024 * 1024
    secretASize_lt := by norm_num
    crcLen_le := by norm_num
    piece_dvd := by norm_num [release]
    readLen_le := by norm_num [release]
    readLen_lt := by norm_num [release] }

variable (cfg : Config)

def m : ℕ := cfg.sLen * 8

def secretFileSize : ℕ := cfg.m * cfg.m

def pieceSize : ℕ := cfg.eachNum * cfg.sLen

def progress : ℕ := cfg.secretASize / cfg.eachNum / cfg.sLen

theorem progress_mul : cfg.progress * cfg.pieceSize = cfg.secretASize := by
  rw [progress, Nat.div_div_eq_div_mul, pieceSize]
  exact Nat.div_mul_cancel cfg.piece_dvd

example : release.progress = 1024 ∧ debug.progress = 16 := by decide

theorem progress_pos : 0 < cfg.progress := by
  have h := cfg.progress_mul
  have hpos := cfg.crcLen_le
  rcases Nat.eq_zero_or_pos cfg.progress with h0 | h0
  · rw [h0, Nat.zero_mul] at h
    omega
  · exact h0

end Config
end ShannonNet
