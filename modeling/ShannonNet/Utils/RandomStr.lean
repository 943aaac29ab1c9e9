import ShannonNet.Utils.Path
import Mathlib.Data.Nat.Init

namespace ShannonNet.Utils

/-- The character of one turn of the loop, from the two numbers `rand()` returns in it. -/
def randomChar (random next : ℕ) : Char :=
  match random % 3 with
  | 1 => Char.ofNat ('A'.toNat + next % 26)
  | 2 => Char.ofNat ('a'.toNat + next % 26)
  | _ => Char.ofNat ('0'.toNat + next % 10)

def genRandomStr (rand : ℕ → ℕ) (len : ℕ) : Str :=
  (List.range len).map fun i ↦ randomChar (rand (2 * i)) (rand (2 * i + 1))

theorem isAlphanum_iff {c : Char} : c.isAlphanum = true ↔
    65 ≤ c.toNat ∧ c.toNat ≤ 90 ∨ 97 ≤ c.toNat ∧ c.toNat ≤ 122 ∨
      48 ≤ c.toNat ∧ c.toNat ≤ 57 := by
  have hclass : c.isAlphanum = (decide (c.val ≥ 'A'.val ∧ c.val ≤ 'Z'.val) ||
      (decide (c.val ≥ 'a'.val) && decide (c.val ≤ 'z'.val)) ||
      (decide (c.val ≥ '0'.val) && decide (c.val ≤ '9'.val))) := rfl
  rw [hclass]
  simp only [Bool.or_eq_true, Bool.and_eq_true, decide_eq_true_eq, UInt32.le_iff_toNat_le,
    ge_iff_le]
  exact or_assoc

theorem toNat_ofNat {n : ℕ} (h : n < 128) : (Char.ofNat n).toNat = n := by
  have hvalid : n.isValidChar := .inl (by omega)
  rw [Char.ofNat, dif_pos hvalid]
  exact UInt32.toNat_ofNatLT

theorem isAlphanum_randomChar (random next : ℕ) : (randomChar random next).isAlphanum = true := by
  have hA : 'A'.toNat = 65 := rfl
  have ha : 'a'.toNat = 97 := rfl
  have h0 : '0'.toNat = 48 := rfl
  rw [isAlphanum_iff, randomChar]
  split
  · rw [toNat_ofNat (by omega)]
    omega
  · rw [toNat_ofNat (by omega)]
    omega
  · rw [toNat_ofNat (by omega)]
    omega

theorem exists_randomChar {c : Char} (h : c.isAlphanum = true) :
    ∃ random next, randomChar random next = c := by
  have hA : 'A'.toNat = 65 := rfl
  have ha : 'a'.toNat = 97 := rfl
  have h0 : '0'.toNat = 48 := rfl
  have hc (n : ℕ) (hn : n = c.toNat) : Char.ofNat n = c := by rw [hn, Char.ofNat_toNat]
  rcases isAlphanum_iff.mp h with ⟨hlo, hhi⟩ | ⟨hlo, hhi⟩ | ⟨hlo, hhi⟩
  · exact ⟨1, c.toNat - 65, hc _ (by omega)⟩
  · exact ⟨2, c.toNat - 97, hc _ (by omega)⟩
  · exact ⟨0, c.toNat - 48, hc _ (by omega)⟩

/-- The strings are those of the length over the 62 letters and digits, and no other. -/
theorem exists_genRandomStr_iff {len : ℕ} {s : Str} :
    (∃ rand, genRandomStr rand len = s) ↔ s.length = len ∧ ∀ c ∈ s, c.isAlphanum = true := by
  constructor
  · rintro ⟨rand, rfl⟩
    refine ⟨by rw [genRandomStr, List.length_map, List.length_range], ?_⟩
    intro c hc
    obtain ⟨i, -, rfl⟩ := List.mem_map.mp hc
    exact isAlphanum_randomChar _ _
  · rintro ⟨rfl, h⟩
    have hchar (i : ℕ) : ∃ r : ℕ × ℕ, ∀ hi : i < s.length, randomChar r.1 r.2 = s[i] := by
      by_cases hi : i < s.length
      · obtain ⟨random, next, hc⟩ := exists_randomChar (h s[i] (List.getElem_mem hi))
        exact ⟨(random, next), fun _ ↦ hc⟩
      · exact ⟨(0, 0), fun hlt ↦ absurd hlt hi⟩
    choose r hr using hchar
    refine ⟨fun k ↦ if k % 2 = 0 then (r (k / 2)).1 else (r (k / 2)).2, ?_⟩
    apply List.ext_getElem
    · rw [genRandomStr, List.length_map, List.length_range]
    · intro i _ hi
      simp only [genRandomStr, List.getElem_map, List.getElem_range]
      rw [if_pos (by omega), if_neg (by omega), show 2 * i / 2 = i by omega,
        show (2 * i + 1) / 2 = i by omega, hr i hi]

end ShannonNet.Utils
