import ShannonNet.Library.Crc
import Mathlib.Logic.Function.Iterate

namespace ShannonNet.Library.Crc

open Bitset

section Width

variable {w : ℕ} (p : BitVec w)

/-- `shift` in any width. -/
def shiftBy (x : BitVec w) : BitVec w := if x.getLsbD 0 then (x >>> 1) ^^^ p else x >>> 1

def feedBy (x : BitVec w) (c : UInt8) : BitVec w :=
  (shiftBy p)^[8] (x ^^^ c.toBitVec.setWidth w)

/-- The bits from `j` on are clear. -/
def Below (j : ℕ) (x : BitVec w) : Prop := ∀ i, j ≤ i → x.getLsbD i = false

theorem below_zero {x : BitVec w} : Below 0 x ↔ x = 0 := by
  constructor
  · intro h
    apply BitVec.eq_of_getLsbD_eq
    intro i _
    rw [h i (Nat.zero_le i)]
    simp
  · rintro rfl i -
    simp

theorem shiftBy_getLsbD (x : BitVec w) (i : ℕ) :
    (shiftBy p x).getLsbD i = (x.getLsbD (i + 1) ^^ (x.getLsbD 0 && p.getLsbD i)) := by
  unfold shiftBy
  split_ifs with h <;> simp [h, Nat.add_comm]

theorem shiftBy_xor (x y : BitVec w) : shiftBy p (x ^^^ y) = shiftBy p x ^^^ shiftBy p y := by
  apply BitVec.eq_of_getLsbD_eq
  intro i _
  simp only [shiftBy_getLsbD, BitVec.getLsbD_xor]
  cases x.getLsbD 0 <;> cases y.getLsbD 0 <;> cases x.getLsbD (i + 1) <;>
    cases y.getLsbD (i + 1) <;> simp

theorem iterate_xor (n : ℕ) (x y : BitVec w) :
    (shiftBy p)^[n] (x ^^^ y) = (shiftBy p)^[n] x ^^^ (shiftBy p)^[n] y := by
  induction n generalizing x y with
  | zero => rfl
  | succ n ih => simp only [Function.iterate_succ_apply, shiftBy_xor, ih]

theorem feedBy_xor (x y : BitVec w) (c d : UInt8) :
    feedBy p x c ^^^ feedBy p y d =
      (shiftBy p)^[8] ((x ^^^ y) ^^^ (c.toBitVec ^^^ d.toBitVec).setWidth w) := by
  rw [feedBy, feedBy, ← iterate_xor]
  congr 1
  apply BitVec.eq_of_getLsbD_eq
  intro i hi
  simp only [BitVec.getLsbD_xor, BitVec.getLsbD_setWidth, hi, decide_true, Bool.true_and]
  cases x.getLsbD i <;> cases y.getLsbD i <;> simp

variable {p} {x y : BitVec w} (hp : p.getLsbD (w - 1) = true)

include hp

/-- A clear top bit tells that the polynomial was not added. -/
theorem shiftBy_below {j : ℕ} (hj : j < w) (h : Below j (shiftBy p x)) :
    x.getLsbD 0 = false ∧ Below (j + 1) x := by
  have hlow : x.getLsbD 0 = false := by
    have htop := h (w - 1) (by omega)
    rw [shiftBy_getLsbD, hp, BitVec.getLsbD_of_ge x (w - 1 + 1) (by omega)] at htop
    simpa using htop
  refine ⟨hlow, fun i hi ↦ ?_⟩
  have hbit := h (i - 1) (by omega)
  rw [shiftBy_getLsbD, hlow, show i - 1 + 1 = i by omega] at hbit
  simpa using hbit

theorem iterate_below {n j : ℕ} (hj : j + n ≤ w) (h : Below j ((shiftBy p)^[n] x)) :
    (∀ i < n, x.getLsbD i = false) ∧ Below (j + n) x := by
  induction n generalizing x with
  | zero => exact ⟨fun i hi ↦ absurd hi (Nat.not_lt_zero i), h⟩
  | succ n ih =>
    rw [Function.iterate_succ_apply] at h
    obtain ⟨hclear, hbelow⟩ := ih (by omega) h
    obtain ⟨hlow, hbelow⟩ := shiftBy_below hp (by omega) hbelow
    refine ⟨fun i hi ↦ ?_, hbelow⟩
    cases i with
    | zero => exact hlow
    | succ i =>
      have hbit := hclear i (by omega)
      rw [shiftBy_getLsbD, hlow] at hbit
      simpa using hbit

theorem shiftBy_injective : Function.Injective (shiftBy p) := by
  intro x y h
  have hw : 0 < w := by
    by_contra hw
    rw [BitVec.getLsbD_of_ge p (w - 1) (by omega)] at hp
    cases hp
  have hzero : Below 0 (shiftBy p (x ^^^ y)) := by
    rw [below_zero, shiftBy_xor, h]
    exact BitVec.xor_self
  obtain ⟨hlow, hbelow⟩ := shiftBy_below hp hw hzero
  have hclear : x ^^^ y = 0 := by
    rw [← below_zero]
    intro i _
    cases i with
    | zero => exact hlow
    | succ i => exact hbelow (i + 1) (by omega)
  exact BitVec.xor_eq_zero_iff.mp hclear

theorem foldl_feedBy_injective (data : Bytes) :
    Function.Injective fun x ↦ data.foldl (feedBy p) x := by
  induction data with
  | nil => exact Function.injective_id
  | cons c data ih =>
    intro x y h
    have hfeed : feedBy p x c = feedBy p y c := ih h
    have hxor := (shiftBy_injective hp).iterate 8 hfeed
    exact (BitVec.xor_left_inj _).mp hxor

/-- Registers that end close together were fed almost the same: each byte taken back moves the
difference up by eight places, and it has no room to fall off. -/
theorem foldl_feedBy_below {a b : Bytes} (hlen : a.length = b.length) {j : ℕ}
    (hj : j + 8 * a.length ≤ w) (h : Below j (a.foldl (feedBy p) x ^^^ b.foldl (feedBy p) y)) :
    Below (j + 8 * a.length) (x ^^^ y) ∧ (x = y → a = b) := by
  induction a generalizing b x y with
  | nil =>
    obtain rfl := List.length_eq_zero_iff.mp hlen.symm
    exact ⟨h, fun _ ↦ rfl⟩
  | cons c a ih =>
    cases b with
    | nil => cases hlen
    | cons d b =>
      rw [List.length_cons] at hj ⊢
      obtain ⟨hbelow, heq⟩ := ih (Nat.succ.inj hlen) (by omega) h
      rw [feedBy_xor] at hbelow
      obtain ⟨hclear, hbelow⟩ := iterate_below hp (by omega) hbelow
      refine ⟨fun i hi ↦ ?_, ?_⟩
      · have hbit := hbelow i (by omega)
        rw [BitVec.getLsbD_xor, BitVec.getLsbD_setWidth,
          BitVec.getLsbD_of_ge (c.toBitVec ^^^ d.toBitVec) i (by omega)] at hbit
        simpa using hbit
      · rintro rfl
        have hbyte : c.toBitVec ^^^ d.toBitVec = 0 := by
          apply BitVec.eq_of_getLsbD_eq
          intro i hi
          have hbit := hclear i hi
          rw [BitVec.xor_self, BitVec.getLsbD_xor, BitVec.getLsbD_setWidth] at hbit
          simpa [show i < w by omega] using hbit
        obtain rfl : c = d := UInt8.toBitVec_inj.mp (BitVec.xor_eq_zero_iff.mp hbyte)
        rw [heq rfl]

/-- A change within as many bits as the register has is noticed. -/
theorem foldl_feedBy_burst {start a b rest : Bytes} (hlen : a.length = b.length)
    (hw : 8 * a.length ≤ w) (hne : a ≠ b) :
    (start ++ a ++ rest).foldl (feedBy p) x ≠ (start ++ b ++ rest).foldl (feedBy p) x := by
  simp only [List.foldl_append]
  intro h
  have hmiddle := foldl_feedBy_injective hp rest h
  have hbelow : Below 0 (a.foldl (feedBy p) (start.foldl (feedBy p) x) ^^^
      b.foldl (feedBy p) (start.foldl (feedBy p) x)) := by
    rw [below_zero, hmiddle]
    exact BitVec.xor_self
  exact hne ((foldl_feedBy_below hp hlen (by omega) hbelow).2 rfl)

end Width

theorem shift_toBitVec (crc : UInt32) :
    (shift crc).toBitVec = shiftBy polynomial.toBitVec crc.toBitVec := by
  have hlow : crc &&& 1 = 1 ↔ crc.toBitVec.getLsbD 0 = true := by
    rw [← UInt32.toNat_inj, UInt32.toNat_and, UInt32.toNat_one, Nat.and_one_is_mod]
    simp [BitVec.getLsbD, Nat.testBit_zero]
  unfold shift shiftBy
  by_cases h : crc &&& 1 = 1
  · rw [if_pos h, if_pos (hlow.mp h)]
    rfl
  · rw [if_neg h, if_neg fun hbit ↦ h (hlow.mpr hbit)]
    rfl

theorem feed_toBitVec (crc : UInt32) (c : UInt8) :
    (feed crc c).toBitVec = feedBy polynomial.toBitVec crc.toBitVec c := by
  have hiterate (n : ℕ) (crc : UInt32) :
      (shift^[n] crc).toBitVec = (shiftBy polynomial.toBitVec)^[n] crc.toBitVec := by
    induction n generalizing crc with
    | zero => rfl
    | succ n ih => rw [Function.iterate_succ_apply, Function.iterate_succ_apply, ih, shift_toBitVec]
  exact hiterate 8 _

theorem foldl_feed_toBitVec (data : Bytes) (crc : UInt32) :
    (data.foldl feed crc).toBitVec =
      data.foldl (feedBy polynomial.toBitVec) crc.toBitVec := by
  induction data generalizing crc with
  | nil => rfl
  | cons c data ih => rw [List.foldl_cons, List.foldl_cons, ih, feed_toBitVec]

theorem castagnoli_burst {start a b rest : Bytes} (hlen : a.length = b.length)
    (hshort : a.length ≤ 4) (hne : a ≠ b) :
    castagnoli (start ++ a ++ rest) ≠ castagnoli (start ++ b ++ rest) := by
  intro h
  have hcrc := (UInt32.xor_left_inj _).mp h
  have hbits := congrArg UInt32.toBitVec hcrc
  rw [foldl_feed_toBitVec, foldl_feed_toBitVec] at hbits
  exact foldl_feedBy_burst (by decide) hlen (by omega) hne hbits

end ShannonNet.Library.Crc
