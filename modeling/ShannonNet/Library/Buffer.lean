import ShannonNet.Library.Bitset
import Mathlib.Data.List.GetD

namespace ShannonNet.Library.Buffer

open Bitset

def zeros (n : ℕ) : Bytes := List.replicate n 0

/-- The bytes a stream positioned at `pos` delivers to a request for `n` of them. -/
def readAt (file : Bytes) (pos n : ℕ) : Bytes := (file.drop pos).take n

def overlay (buf : Bytes) (off : ℕ) (data : Bytes) : Bytes :=
  buf.take off ++ data ++ buf.drop (off + data.length)

/-- A buffer of `n` bytes filled by one read; what the file does not supply stays zero. -/
def load (n : ℕ) (file : Bytes) (pos : ℕ) : Bytes := overlay (zeros n) 0 (readAt file pos n)

theorem zeros_length (n : ℕ) : (zeros n).length = n := List.length_replicate

theorem zeros_getD (n pos : ℕ) : (zeros n).getD pos 0 = 0 := by
  rw [zeros, List.getD_eq_getElem?_getD, List.getElem?_replicate]
  split_ifs <;> rfl

theorem readAt_length {file : Bytes} {pos n : ℕ} (h : pos + n ≤ file.length) :
    (readAt file pos n).length = n := by
  simp only [readAt, List.length_take, List.length_drop]
  omega

theorem overlay_length {buf data : Bytes} {off : ℕ} (h : off + data.length ≤ buf.length) :
    (overlay buf off data).length = buf.length := by
  simp only [overlay, List.length_append, List.length_take, List.length_drop]
  omega

theorem load_length (n : ℕ) (file : Bytes) (pos : ℕ) : (load n file pos).length = n := by
  unfold load
  rw [overlay_length, zeros_length]
  simp only [readAt, List.length_take, zeros_length]
  omega

theorem load_eq_readAt {n : ℕ} {file : Bytes} {pos : ℕ} (h : pos + n ≤ file.length) :
    load n file pos = readAt file pos n := by
  simp [load, overlay, readAt_length h, zeros]

theorem load_self {n : ℕ} {file : Bytes} (h : file.length = n) : load n file 0 = file := by
  rw [load_eq_readAt (by omega), readAt, List.drop_zero, ← h, List.take_length]

theorem load_start (n : ℕ) (file : Bytes) :
    load n file 0 = file.take n ++ zeros (n - file.length) := by
  have hdrop : (zeros n).drop (min n file.length) = zeros (n - file.length) := by
    rw [zeros, List.drop_replicate, zeros]
    congr 1
    omega
  rw [load, readAt, overlay, List.take_zero, List.nil_append, List.drop_zero, Nat.zero_add,
    List.length_take, hdrop]

/-- The part of a read that reaches a copy is the file if and only if it has its length, and what
the read did not deliver is zero. -/
theorem take_load_take_eq_iff {file : Bytes} {n m k : ℕ} :
    (load n (file.take m) 0).take k = file ↔
      file.length = min k n ∧ ∀ b ∈ file.drop m, b = 0 := by
  have hcopy (hlen : file.length = min k n) : (load n (file.take m) 0).take k =
      file.take m ++ zeros (file.drop m).length := by
    have hread : (file.take m).length ≤ min k n := by
      rw [List.length_take]
      omega
    rw [load_start, List.take_append, List.take_of_length_le (hread.trans (min_le_right k n)),
      List.take_of_length_le (hread.trans (min_le_left k n)), zeros, List.take_replicate,
      List.length_drop, zeros]
    rw [List.length_take] at hread ⊢
    congr 2
    omega
  have hzeros : file.take m ++ zeros (file.drop m).length = file ↔ ∀ b ∈ file.drop m, b = 0 := by
    nth_rewrite 3 [← List.take_append_drop m file]
    rw [List.append_cancel_left_eq, eq_comm, zeros, List.eq_replicate_iff]
    exact and_iff_right rfl
  constructor
  · intro h
    have hlen : file.length = min k n := by
      rw [← h, List.length_take, load_length]
    exact ⟨hlen, hzeros.mp ((hcopy hlen).symm.trans h)⟩
  · rintro ⟨hlen, hzero⟩
    rw [hcopy hlen]
    exact hzeros.mpr hzero
theorem load_nil (n : ℕ) (pos : ℕ) : load n [] pos = zeros n := by
  simp [load, overlay, readAt, zeros]

theorem overlay_nil (data : Bytes) : overlay [] 0 data = data := by
  simp [overlay]

theorem overlay_append_zeros (filled data : Bytes) (rest : ℕ) :
    overlay (filled ++ zeros rest) filled.length data =
      filled ++ data ++ zeros (rest - data.length) := by
  simp [overlay, zeros]

theorem overlay_take {file : Bytes} {off n : ℕ} (h : off + n ≤ file.length) :
    overlay (file.take off ++ zeros (file.length - off)) off (readAt file off n) =
      file.take (off + n) ++ zeros (file.length - (off + n)) := by
  have hoff : (file.take off).length = off := by
    rw [List.length_take]
    omega
  have ho := overlay_append_zeros (file.take off) (readAt file off n) (file.length - off)
  rw [hoff, readAt_length h] at ho
  rw [ho, readAt, ← List.take_add, Nat.sub_sub]

theorem readAt_append (file : Bytes) (pos m n : ℕ) :
    readAt file pos m ++ readAt file (pos + m) n = readAt file pos (m + n) := by
  simp only [readAt, List.take_add, List.drop_drop]

theorem flatMap_readAt (file : Bytes) (pos n count : ℕ) :
    (List.range count).flatMap (fun i ↦ readAt file (pos + i * n) n) =
      readAt file pos (count * n) := by
  induction count with
  | zero => simp [readAt]
  | succ count ih =>
    rw [List.range_succ, List.flatMap_append, ih, List.flatMap_singleton, readAt_append,
      Nat.succ_mul]

theorem readAt_readAt {file : Bytes} {pos len off n : ℕ} (h : off + n ≤ len) :
    readAt (readAt file pos len) off n = readAt file (pos + off) n := by
  simp only [readAt, List.drop_take, List.drop_drop, List.take_take]
  congr 1
  omega

theorem flatMap_getD {α : Type} (l : List α) (f : α → Bytes) (n : ℕ)
    (hf : ∀ a ∈ l, (f a).length = n)
    (g j : ℕ) (hg : g < l.length) (hj : j < n) :
    (l.flatMap f).getD (g * n + j) 0 = (f l[g]).getD j 0 := by
  induction l generalizing g with
  | nil => simp at hg
  | cons a l ih =>
    have ha : (f a).length = n := hf a (by simp)
    cases g with
    | zero =>
      rw [List.flatMap_cons, List.getD_append _ _ _ _ (by omega), Nat.zero_mul, Nat.zero_add]
      rfl
    | succ g =>
      rw [List.flatMap_cons, List.getD_append_right _ _ _ _ (by rw [ha, Nat.succ_mul]; omega), ha,
        Nat.succ_mul, show g * n + n + j - n = g * n + j by omega]
      exact ih (fun b hb ↦ hf b (by simp [hb])) g (by simpa using hg)

theorem flatMap_length {α : Type} (l : List α) (f : α → Bytes) (n : ℕ)
    (hf : ∀ a ∈ l, (f a).length = n) : (l.flatMap f).length = l.length * n := by
  induction l with
  | nil => simp
  | cons a l ih =>
    rw [List.flatMap_cons, List.length_append, hf a (by simp), ih (fun b hb ↦ hf b (by simp [hb])),
      List.length_cons, Nat.succ_mul, Nat.add_comm]

theorem flatMap_bitAt {α : Type} (l : List α) (f : α → Bytes) (n : ℕ)
    (hf : ∀ a ∈ l, (f a).length = n) (g i : ℕ) (hg : g < l.length) (hi : i < 8 * n) :
    bitAt (l.flatMap f) (8 * (g * n) + i) = bitAt (f l[g]) i := by
  unfold bitAt
  rw [show (8 * (g * n) + i) / 8 = g * n + i / 8 by omega,
    show (8 * (g * n) + i) % 8 = i % 8 by omega,
    flatMap_getD l f n hf g (i / 8) hg (by omega)]

def spike (n pos : ℕ) : Bytes := (zeros n).set pos 1

theorem spike_length (n pos : ℕ) : (spike n pos).length = n := by
  rw [spike, List.length_set, zeros_length]

theorem spike_getD {n pos : ℕ} (hpos : pos < n) (i : ℕ) :
    (spike n pos).getD i 0 = if i = pos then 1 else 0 := by
  rw [spike, List.getD_eq_getElem?_getD, List.getElem?_set, zeros_length, if_pos hpos]
  by_cases hi : i = pos
  · rw [if_pos hi, if_pos hi.symm, Option.getD_some]
  · rw [if_neg hi, if_neg (Ne.symm hi), ← List.getD_eq_getElem?_getD, zeros_getD]

theorem zeros_succ (n : ℕ) : zeros (n + 1) = 0 :: zeros n := rfl

theorem parity_zeros (n : ℕ) : parity (unpack (zeros n)) = false := by
  induction n with
  | zero => rfl
  | succ n ih =>
    rw [zeros_succ, unpack_cons, parity_append, ih]
    rfl

theorem parity_spike (n pos : ℕ) : parity (unpack (spike n pos)) = decide (pos < n) := by
  have hzero : parity (bits 0) = false := rfl
  induction n generalizing pos with
  | zero => rfl
  | succ n ih =>
    cases pos with
    | zero =>
      rw [spike, zeros_succ, List.set_cons_zero, unpack_cons, parity_append, parity_zeros]
      rfl
    | succ pos =>
      rw [spike, zeros_succ, List.set_cons_succ, unpack_cons, parity_append, ← spike, ih, hzero,
        Bool.false_xor]
      simp

theorem readAt_zeros (m pos n : ℕ) : readAt (zeros m) pos n = zeros (min n (m - pos)) := by
  simp [readAt, zeros]

theorem parity_readAt_spike {m p s n : ℕ} (h : s + n ≤ m) :
    parity (unpack (readAt (spike m p) s n)) = decide (s ≤ p ∧ p < s + n) := by
  have hmin : min n (m - s) = n := by omega
  by_cases hs : s ≤ p
  · have hr : readAt (spike m p) s n = spike n (p - s) := by
      rw [readAt, spike, List.drop_set, if_neg (by omega), List.take_set]
      change (readAt (zeros m) s n).set (p - s) 1 = _
      rw [readAt_zeros, hmin]
      rfl
    rw [hr, parity_spike, decide_eq_decide]
    omega
  · have hr : readAt (spike m p) s n = zeros n := by
      rw [readAt, spike, List.drop_set, if_pos (by omega)]
      change readAt (zeros m) s n = _
      rw [readAt_zeros, hmin]
    rw [hr, parity_zeros, eq_comm, decide_eq_false_iff_not]
    omega

end ShannonNet.Library.Buffer
