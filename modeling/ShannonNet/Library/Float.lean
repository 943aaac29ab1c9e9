import Mathlib.Algebra.BigOperators.Group.Multiset.Basic
import Mathlib.Algebra.Order.BigOperators.Group.Multiset

namespace ShannonNet.Library.Float

/-- The naturals with a significand of `p` bits. -/
def Representable (p n : ℕ) : Prop := ∃ m k, m < 2 ^ p ∧ n = m * 2 ^ k

theorem representable_of_le {p n : ℕ} (hp : 0 < p) (h : n ≤ 2 ^ p) : Representable p n := by
  rcases h.lt_or_eq with h | h
  · exact ⟨n, 0, h, by simp⟩
  · exact ⟨1, p, Nat.one_lt_two_pow hp.ne', by rw [h, Nat.one_mul]⟩

/-- How a device rounds a sum. -/
structure Rounding (p : ℕ) where
  round : ℕ → ℕ
  exact : ∀ n, Representable p n → round n = n

/-- To the nearest, ties to even. -/
def roundEven (p n : ℕ) : ℕ :=
  let ulp := 2 ^ (n.log2 + 1 - p)
  let q := n / ulp
  let r := n % ulp
  if 2 * r < ulp ∨ 2 * r = ulp ∧ q % 2 = 0 then q * ulp else (q + 1) * ulp

theorem roundEven_exact {p n : ℕ} (h : Representable p n) : roundEven p n = n := by
  obtain ⟨m, k, hm, rfl⟩ := h
  have hdvd : 2 ^ ((m * 2 ^ k).log2 + 1 - p) ∣ m * 2 ^ k := by
    by_cases hzero : m * 2 ^ k = 0
    · rw [hzero]
      exact Nat.dvd_zero _
    · have hlt : m * 2 ^ k < 2 ^ (p + k) := by
        rw [pow_add]
        exact Nat.mul_lt_mul_of_pos_right hm (Nat.two_pow_pos k)
      have hlog := (Nat.log2_lt hzero).mpr hlt
      exact Dvd.dvd.mul_left (pow_dvd_pow 2 (by omega)) m
  have hpos := Nat.two_pow_pos ((m * 2 ^ k).log2 + 1 - p)
  simp only [roundEven, Nat.mod_eq_zero_of_dvd hdvd]
  rw [if_pos (Or.inl (by omega))]
  exact Nat.div_mul_cancel hdvd

def nearest (p : ℕ) : Rounding p := ⟨roundEven p, fun _ ↦ roundEven_exact⟩

/-- An order of summation: which partial sums are formed, and from which two. -/
inductive Summation (κ : Type*)
  | leaf (j : κ)
  | add (l r : Summation κ)

namespace Summation

variable {κ : Type*} {p : ℕ}

def leaves : Summation κ → Multiset κ
  | leaf j => {j}
  | add l r => l.leaves + r.leaves

def total (x : κ → ℕ) (T : Summation κ) : ℕ := (T.leaves.map x).sum

@[simp]
theorem total_add (x : κ → ℕ) (l r : Summation κ) : (add l r).total x = l.total x + r.total x := by
  rw [total, leaves, Multiset.map_add, Multiset.sum_add]
  rfl

@[simp]
theorem total_leaf (x : κ → ℕ) (j : κ) : (leaf j).total x = x j := by
  rw [total, leaves, Multiset.map_singleton, Multiset.sum_singleton]

def value (rnd : Rounding p) (x : κ → ℕ) : Summation κ → ℕ
  | leaf j => x j
  | add l r => rnd.round (l.value rnd x + r.value rnd x)

/-- Every sum formed on the way meets `P`. -/
def Forms (P : ℕ → Prop) (x : κ → ℕ) : Summation κ → Prop
  | leaf _ => True
  | add l r => l.Forms P x ∧ r.Forms P x ∧ P (l.total x + r.total x)

theorem value_eq_total (rnd : Rounding p) {x : κ → ℕ} {T : Summation κ}
    (h : T.Forms (Representable p) x) : T.value rnd x = T.total x := by
  induction T with
  | leaf j => rw [value, total_leaf]
  | add l r ihl ihr =>
    obtain ⟨hl, hr, hsum⟩ := h
    rw [value, ihl hl, ihr hr, rnd.exact _ hsum, total_add]

theorem Forms.mono {P R : ℕ → Prop} {x : κ → ℕ} {T : Summation κ} (h : T.Forms P x)
    (hPR : ∀ n, P n → R n) : T.Forms R x := by
  induction T with
  | leaf j => trivial
  | add l r ihl ihr => exact ⟨ihl h.1, ihr h.2.1, hPR _ h.2.2⟩

theorem forms_le (x : κ → ℕ) (T : Summation κ) : T.Forms (· ≤ T.total x) x := by
  induction T with
  | leaf j => trivial
  | add l r ihl ihr =>
    rw [total_add]
    exact ⟨ihl.mono fun n hn ↦ Nat.le_add_right_of_le hn,
      ihr.mono fun n hn ↦ Nat.le_add_left_of_le hn, le_rfl⟩

/-- Below `2 ^ p` the order of summation and the rounding do not matter. -/
theorem value_eq_total_of_le (rnd : Rounding p) {x : κ → ℕ} {T : Summation κ} (hp : 0 < p)
    (h : T.total x ≤ 2 ^ p) : T.value rnd x = T.total x :=
  value_eq_total rnd ((forms_le x T).mono fun _ hn ↦ representable_of_le hp (hn.trans h))

/-- One term after the other. -/
def chain (T : Summation κ) (l : List κ) : Summation κ := l.foldl (fun T j ↦ add T (leaf j)) T

theorem chain_cons (T : Summation κ) (j : κ) (l : List κ) :
    T.chain (j :: l) = (add T (leaf j)).chain l := rfl

theorem chain_leaves (T : Summation κ) (l : List κ) : (T.chain l).leaves = T.leaves + l := by
  induction l generalizing T with
  | nil => exact (add_zero _).symm
  | cons j l ih =>
    rw [chain_cons, ih, leaves, leaves, add_assoc]
    rfl

theorem chain_forms {P : ℕ → Prop} {x : κ → ℕ} {T : Summation κ} {l : List κ} {c : ℕ}
    (hT : T.Forms P x) (hl : ∀ j ∈ l, x j = c) (hP : ∀ k ≤ l.length, P (T.total x + k * c)) :
    (T.chain l).Forms P x := by
  induction l generalizing T with
  | nil => exact hT
  | cons j l ih =>
    have hj := hl j (by simp)
    rw [chain_cons]
    apply ih
    · refine ⟨hT, trivial, ?_⟩
      rw [total_leaf, hj]
      simpa using hP 1 (by simp)
    · intro i hi
      exact hl i (by simp [hi])
    · intro k hk
      rw [total_add, total_leaf, hj, add_assoc, Nat.add_comm c, ← Nat.succ_mul]
      exact hP _ (Nat.succ_le_succ hk)

theorem chain_total {x : κ → ℕ} (T : Summation κ) {l : List κ} {c : ℕ} (hl : ∀ j ∈ l, x j = c) :
    (T.chain l).total x = T.total x + l.length * c := by
  rw [total, chain_leaves, Multiset.map_add, Multiset.sum_add, Multiset.map_coe, Multiset.sum_coe,
    List.map_congr_left hl, List.map_const', List.sum_replicate]
  rfl

end Summation

end ShannonNet.Library.Float
