import ShannonNet.Library.Float
import ShannonNet.LWE.Gpu

namespace ShannonNet.LWE.Gpu

open Library.Float

/-- The bits of a significand of `GPU_TYPE`, which is `torch::kFloat32`. -/
def gpuBits : ℕ := 24

section Range

variable {M N : ℕ} (Q : ℕ) (A : Matrix (Fin M) (Fin N) UInt8) (s : Fin N → Fin Q)

def term (i : Fin M) (j : Fin N) : ℕ := (A i j).toNat % Q * s j

/-- `(A % Q).matmul(s) % Q` on a device that sums the terms of a row in the order `T`. -/
def floatProduct (rnd : Rounding gpuBits) (T : Summation (Fin N)) (i : Fin M) : ℕ :=
  T.value rnd (term Q A s i) % Q

def Covers (T : Summation (Fin N)) : Prop := T.leaves = Finset.univ.val

theorem Covers.total_eq {T : Summation (Fin N)} (hT : Covers T) (x : Fin N → ℕ) :
    T.total x = ∑ j, x j := by
  rw [Summation.total, hT]
  rfl

/-- Every partial sum of a row, whichever terms it holds, is an integer that `GPU_TYPE` has. -/
def InRange (i : Fin M) : Prop :=
  ∀ columns : Finset (Fin N), ∑ j ∈ columns, term Q A s i j ≤ 2 ^ gpuBits

theorem inRange_iff (i : Fin M) : InRange Q A s i ↔ ∑ j, term Q A s i j ≤ 2 ^ gpuBits := by
  constructor
  · intro h
    exact h Finset.univ
  · intro h columns
    exact (Finset.sum_le_univ_sum_of_nonneg fun _ ↦ Nat.zero_le _).trans h

theorem product_eq_sum (i : Fin M) :
    product Q A (fun j ↦ (s j : ℕ)) i = (∑ j, term Q A s i j : ℕ) % Q := by
  rw [product, Matrix.mulVec, dotProduct]
  congr 1
  push_cast
  apply Finset.sum_congr rfl
  intro j _
  rw [term, Nat.cast_mul, Int.natCast_mod]
  rfl

theorem floatProduct_eq_product (rnd : Rounding gpuBits) {T : Summation (Fin N)} (hT : Covers T)
    {i : Fin M} (h : InRange Q A s i) :
    (floatProduct Q A s rnd T i : ℤ) = product Q A (fun j ↦ (s j : ℕ)) i := by
  have htotal := hT.total_eq (term Q A s i)
  have hle : T.total (term Q A s i) ≤ 2 ^ gpuBits := htotal ▸ h Finset.univ
  rw [floatProduct, Summation.value_eq_total_of_le rnd (by norm_num [gpuBits]) hle, htotal,
    product_eq_sum, Int.natCast_mod]

end Range

/-- Over all keys and secrets the range is a matter of the configuration. -/
theorem inRange_all_iff {M N Q : ℕ} (hM : 0 < M) (hQ : 0 < Q) (hQ' : Q ≤ 256) :
    (∀ (A : Matrix (Fin M) (Fin N) UInt8) (s : Fin N → Fin Q) i, InRange Q A s i) ↔
      N * ((Q - 1) * (Q - 1)) ≤ 2 ^ gpuBits := by
  constructor
  · intro h
    have hrow := h (fun _ _ ↦ UInt8.ofNat (Q - 1)) (fun _ ↦ ⟨Q - 1, by omega⟩) ⟨0, hM⟩ Finset.univ
    have hentry : (Q - 1) % 2 ^ 8 % Q = Q - 1 := by
      rw [Nat.mod_eq_of_lt (by omega : Q - 1 < 2 ^ 8), Nat.mod_eq_of_lt (by omega)]
    simp only [term, UInt8.toNat_ofNat', hentry, Finset.sum_const, Finset.card_univ,
      Fintype.card_fin, smul_eq_mul] at hrow
    exact hrow
  · intro h A s i
    rw [inRange_iff]
    calc ∑ j, term Q A s i j ≤ ∑ _j : Fin N, (Q - 1) * (Q - 1) := by
          apply Finset.sum_le_sum
          intro j _
          have hA := Nat.mod_lt (A i j).toNat hQ
          have hs := (s j).isLt
          exact Nat.mul_le_mul (by omega) (by omega)
      _ = N * ((Q - 1) * (Q - 1)) := by simp
      _ ≤ 2 ^ gpuBits := h

/-- All partial sums of all rows stay within the exact integers, and with them every product is the
same in every order of summation, if and only if `N` and `Q` leave room for it. -/
theorem exact_product_all_iff {M N Q : ℕ} (hM : 0 < M) (hQ : 0 < Q) (hQ' : Q ≤ 256) :
    (∀ (A : Matrix (Fin M) (Fin N) UInt8) (s : Fin N → Fin Q) i, InRange Q A s i ∧
      ∀ (rnd : Rounding gpuBits) (T : Summation (Fin N)), Covers T →
        (floatProduct Q A s rnd T i : ℤ) = product Q A (fun j ↦ (s j : ℕ)) i) ↔
      N * ((Q - 1) * (Q - 1)) ≤ 2 ^ gpuBits := by
  rw [← inRange_all_iff hM hQ hQ']
  constructor
  · intro h A s i
    exact (h A s i).1
  · intro h A s i
    exact ⟨h A s i, fun rnd _ hT ↦ floatProduct_eq_product Q A s rnd hT (h A s i)⟩

/-- With the `N` of the release configuration a modulus of 46 is small enough, its own is not. -/
theorem exact_product_release :
    (∀ (A : Matrix (Fin 8192) (Fin 8192) UInt8) (s : Fin 8192 → Fin 46) i, InRange 46 A s i ∧
      ∀ (rnd : Rounding gpuBits) (T : Summation (Fin 8192)), Covers T →
        (floatProduct 46 A s rnd T i : ℤ) = product 46 A (fun j ↦ (s j : ℕ)) i) ∧
    ¬∀ (A : Matrix (Fin 8192) (Fin 8192) UInt8) (s : Fin 8192 → Fin 97) i, InRange 97 A s i ∧
      ∀ (rnd : Rounding gpuBits) (T : Summation (Fin 8192)), Covers T →
        (floatProduct 97 A s rnd T i : ℤ) = product 97 A (fun j ↦ (s j : ℕ)) i := by
  constructor
  · exact (exact_product_all_iff (by norm_num) (by norm_num) (by norm_num)).mpr
      (by norm_num [gpuBits])
  · rw [exact_product_all_iff (by norm_num) (by norm_num) (by norm_num)]
    norm_num [gpuBits]

section Order

variable (n : ℕ)

def rowA : Matrix (Fin (n + 3)) (Fin (n + 3)) UInt8 := fun _ j ↦ if j.val < 2 then 4 else 96

def rowS (j : Fin (n + 3)) : Fin 97 := if j.val < 2 then 1 else 96

def largeColumns : List (Fin (n + 3)) := (List.finRange n).map fun j : Fin n ↦ j.succ.succ.succ

def largeTerms : Summation (Fin (n + 3)) := (Summation.leaf 2).chain (largeColumns n)

def smallLast : Summation (Fin (n + 3)) :=
  ((largeTerms n).add (.leaf 0)).add (.leaf 1)

def smallTogether : Summation (Fin (n + 3)) :=
  (largeTerms n).add (.add (.leaf 0) (.leaf 1))

variable {n} (i : Fin (n + 3))

theorem term_small {j : Fin (n + 3)} (hj : j.val < 2) : term 97 (rowA n) (rowS n) i j = 4 := by
  simp [term, rowA, rowS, hj]

theorem term_large {j : Fin (n + 3)} (hj : 2 ≤ j.val) : term 97 (rowA n) (rowS n) i j = 9216 := by
  simp [term, rowA, rowS, Nat.not_lt.mpr hj]

theorem term_largeColumns : ∀ j ∈ largeColumns n, term 97 (rowA n) (rowS n) i j = 9216 := by
  intro j hj
  obtain ⟨k, -, rfl⟩ := List.mem_map.mp hj
  exact term_large i (by simp)

theorem largeColumns_length : (largeColumns n).length = n := by
  rw [largeColumns, List.length_map, List.length_finRange]

theorem largeTerms_total :
    (largeTerms n).total (term 97 (rowA n) (rowS n) i) = (n + 1) * 9216 := by
  rw [largeTerms, Summation.chain_total _ (term_largeColumns i), Summation.total_leaf,
    term_large i Fin.val_two.ge, largeColumns_length]
  omega

theorem largeTerms_value (hn : n + 1 ≤ 2 ^ 20) :
    (largeTerms n).value (nearest gpuBits) (term 97 (rowA n) (rowS n) i) = (n + 1) * 9216 := by
  rw [Summation.value_eq_total, largeTerms_total]
  refine Summation.chain_forms trivial (term_largeColumns i) ?_
  intro k hk
  rw [largeColumns_length] at hk
  rw [Summation.total_leaf, term_large i Fin.val_two.ge]
  exact ⟨(k + 1) * 9, 10, by simp only [gpuBits]; omega, by omega⟩

theorem covers_of_leaves {T : Summation (Fin (n + 3))}
    (h : T.leaves = (largeTerms n).leaves + ({0} + {1})) : Covers T := by
  have hlarge : (largeTerms n).leaves = (2 :: largeColumns n : List (Fin (n + 3))) := by
    rw [largeTerms, Summation.chain_leaves]
    rfl
  have hall : 0 :: 1 :: 2 :: largeColumns n = List.finRange (n + 3) := by
    rw [List.finRange_succ, List.finRange_succ, List.finRange_succ]
    simp [largeColumns, Function.comp_def]
  rw [Covers, h, hlarge]
  exact (add_comm _ _).trans (congrArg Multiset.ofList hall)

theorem smallLast_covers : Covers (smallLast n) :=
  covers_of_leaves (add_assoc _ _ _)

theorem smallTogether_covers : Covers (smallTogether n) :=
  covers_of_leaves rfl

theorem smallLast_value :
    (smallLast n).value (nearest gpuBits) (term 97 (rowA n) (rowS n) i) =
      roundEven gpuBits (roundEven gpuBits
        ((largeTerms n).value (nearest gpuBits) (term 97 (rowA n) (rowS n) i) + 4) + 4) := by
  rw [smallLast, Summation.value, Summation.value, Summation.value, Summation.value,
    term_small i (by simp), term_small i (by simp)]
  rfl

theorem smallTogether_value :
    (smallTogether n).value (nearest gpuBits) (term 97 (rowA n) (rowS n) i) =
      roundEven gpuBits ((largeTerms n).value (nearest gpuBits) (term 97 (rowA n) (rowS n) i) +
        roundEven gpuBits (4 + 4)) := by
  rw [smallTogether, Summation.value, Summation.value, Summation.value, Summation.value,
    term_small i (by simp), term_small i (by simp)]
  rfl

theorem rowSum : ∑ j, term 97 (rowA n) (rowS n) i j = (n + 1) * 9216 + 4 + 4 := by
  rw [← smallLast_covers.total_eq, smallLast, Summation.total_add, Summation.total_add,
    largeTerms_total, Summation.total_leaf, Summation.total_leaf, term_small i (by simp),
    term_small i (by simp)]

theorem products_differ_of_round (hn : n + 1 ≤ 2 ^ 20)
    (h : roundEven gpuBits (roundEven gpuBits ((n + 1) * 9216 + 4) + 4) % 97 ≠
      roundEven gpuBits ((n + 1) * 9216 + roundEven gpuBits (4 + 4)) % 97) :
    floatProduct 97 (rowA n) (rowS n) (nearest gpuBits) (smallLast n) i ≠
      floatProduct 97 (rowA n) (rowS n) (nearest gpuBits) (smallTogether n) i := by
  rw [floatProduct, floatProduct, smallLast_value, smallTogether_value, largeTerms_value i hn]
  exact h

/-- A row of the release configuration whose sum two devices can take to be different. -/
theorem products_differ :
    let A : Matrix (Fin 8192) (Fin 8192) UInt8 := rowA 8189
    let s : Fin 8192 → Fin 97 := rowS 8189
    ¬InRange 97 A s 0 ∧ ∃ T T' : Summation (Fin 8192), Covers T ∧ Covers T' ∧
      floatProduct 97 A s (nearest gpuBits) T 0 ≠ floatProduct 97 A s (nearest gpuBits) T' 0 := by
  intro A s
  constructor
  · intro h
    have hsum := (rowSum (n := 8189) 0).symm.trans_le ((inRange_iff 97 A s 0).mp h)
    simp only [gpuBits] at hsum
    omega
  · exact ⟨smallLast 8189, smallTogether 8189, smallLast_covers, smallTogether_covers,
      products_differ_of_round 0 (by norm_num) (by decide)⟩

end Order

end ShannonNet.LWE.Gpu
