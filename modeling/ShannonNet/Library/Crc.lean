import ShannonNet.Library.Buffer
import Mathlib.Data.Nat.Digits.Defs

namespace ShannonNet.Library.Crc

open Bitset Buffer

def polynomial : UInt32 := 0x82F63B78

def shift (crc : UInt32) : UInt32 :=
  if crc &&& 1 = 1 then (crc >>> 1) ^^^ polynomial else crc >>> 1

def feed (crc : UInt32) (c : UInt8) : UInt32 :=
  (List.range 8).foldl (fun crc _ ↦ shift crc) (crc ^^^ c.toUInt32)

/-- CRC-32C, bit by bit. -/
def castagnoli (data : Bytes) : UInt32 := data.foldl feed 0xFFFFFFFF ^^^ 0xFFFFFFFF

example : castagnoli [49, 50, 51, 52, 53, 54, 55, 56, 57] = 0xE3069283 := by
  decide +kernel

def decimal (width n : ℕ) : Bytes :=
  ((Nat.toDigits 10 n).leftpad width '0').map fun c ↦ UInt8.ofNat c.toNat

theorem decimal_length {width n : ℕ} (hw : 0 < width) (hn : n < 10 ^ width) :
    (decimal width n).length = width := by
  rw [decimal, List.length_map, List.length_leftpad]
  exact max_eq_left (Nat.toDigits_length 10 n width hw hn)

theorem isDigit_of_mem {width n : ℕ} {d : Char}
    (hd : d ∈ (Nat.toDigits 10 n).leftpad width '0') :
    (UInt8.ofNat d.toNat).toNat = d.toNat ∧ 48 ≤ d.toNat := by
  have hdigit : d.isDigit = true := by
    rcases List.mem_append.mp hd with hzero | hdigit
    · rw [List.eq_of_mem_replicate hzero]
      rfl
    · exact Nat.isDigit_of_mem_toDigits (by decide) (by decide) hdigit
  obtain ⟨hle, hge⟩ := Char.isDigit_iff_toNat.mp hdigit
  simp only [Char.reduceToNat] at hle hge
  refine ⟨?_, hle⟩
  rw [UInt8.toNat_ofNat']
  omega

theorem not_mem_decimal (width n : ℕ) : 0 ∉ decimal width n := by
  intro hzero
  obtain ⟨d, hd, heq⟩ := List.mem_map.mp hzero
  obtain ⟨hbyte, hdigit⟩ := isDigit_of_mem hd
  rw [heq, UInt8.toNat_zero] at hbyte
  omega

/-- The number behind printed digits. -/
def readDecimal (data : Bytes) : ℕ := data.foldl (fun n c ↦ 10 * n + (c.toNat - 48)) 0

theorem readDecimal_decimal (width n : ℕ) : readDecimal (decimal width n) = n := by
  have hvalue : readDecimal (decimal width n) =
      Nat.ofDigitChars 10 ((Nat.toDigits 10 n).leftpad width '0') 0 := by
    rw [readDecimal, decimal, List.foldl_map, Nat.ofDigitChars_eq_foldl]
    apply List.foldl_ext
    intro acc d hd
    rw [(isDigit_of_mem hd).1]
    rfl
  rw [hvalue, List.leftpad, Nat.ofDigitChars_append, Nat.ofDigitChars_replicate_zero, Nat.mul_zero,
    Nat.ofDigitChars_ten_toDigits]

theorem decimal_injective (width : ℕ) : Function.Injective (decimal width) :=
  Function.LeftInverse.injective (readDecimal_decimal width)

end ShannonNet.Library.Crc
