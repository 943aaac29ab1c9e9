import ShannonNet.LWE.Message
import Mathlib.Data.Matrix.Basic

namespace ShannonNet.LWE.Cpu

open Library.Bitset

/-- `template <typename T, uint Q> T mod(T value)` at `T = uint16_t`. -/
def mod (Q : ℕ) (value : UInt16) : UInt16 := UInt16.ofNat (value.toNat % Q)

def high (Q : ℕ) (half : Bool) : ℕ := if half then Q / 2 - 1 else Q - 1

/-- A vector `generateSecret(n, 1, half)` can return. -/
structure Secret (Q : ℕ) (half : Bool) (n : ℕ) where
  val : Fin n → UInt16
  le_high : ∀ i, (val i).toNat ≤ high Q half

/-- `(T)(std::ceil(Q / 2))`; the division is the integer one. -/
def halfQ (Q : ℕ) : UInt16 := UInt16.ofNat (Q / 2)

variable {M N : ℕ}

/-- Eigen's product of a matrix and a column over `uint16_t`: every product and every
partial sum wraps. -/
def product (A : Matrix (Fin M) (Fin N) UInt16) (s : Fin N → UInt16) (i : Fin M) : UInt16 :=
  (List.finRange N).foldl (fun acc j ↦ acc + A i j * s j) 0

/-- `{(char *)v.data(), n * sizeof(T)}`: two bytes an entry, the low one first. -/
def image {n : ℕ} (v : Fin n → UInt16) : Bytes :=
  (List.ofFn v).flatMap fun x : UInt16 ↦ [x.toUInt8, (x >>> 8).toUInt8]

/-- `Eigen::Map<MatrixXT>((T *)str.data(), n, 1)`. -/
def view (str : Bytes) (n : ℕ) (i : Fin n) : UInt16 :=
  (str.getD (2 * i) 0).toUInt16 + ((str.getD (2 * i + 1) 0).toUInt16 <<< 8)

/-- `LWE::encrypt` with the two vectors it draws; `none` is the failed `LOG_ASSERT`. -/
def encrypt (Q : ℕ) (inMessage : Bytes) (A : Matrix (Fin M) (Fin N) UInt16)
    (s : Secret Q false N) (e : Secret Q true M) : Option (Bytes × Bytes) :=
  if inMessage.length ≠ 0 then
    let ms (i : Fin M) : UInt16 := (message2bin inMessage).getD i 0
    let b (i : Fin M) : UInt16 := mod Q (mod Q (product A s.val i) + e.val i + ms i * halfQ Q)
    some (image s.val, image b)
  else none

def decrypt (Q : ℕ) (A : Matrix (Fin M) (Fin N) UInt16) (in_s in_b : Bytes) : Bytes :=
  let s := view in_s N
  let b := view in_b M
  let b_ (i : Fin M) : UInt16 := mod Q (b i + UInt16.ofNat Q - mod Q (product A s i))
  bin2message (List.ofFn fun i ↦ if b_ i < halfQ Q then false else true)

theorem image_getD {n : ℕ} (v : Fin n → UInt16) (i : Fin n) :
    (image v).getD (2 * i) 0 = (v i).toUInt8 ∧
      (image v).getD (2 * i + 1) 0 = (v i >>> 8).toUInt8 := by
  induction n with
  | zero => exact i.elim0
  | succ n ih =>
    have hi : image v = (v 0).toUInt8 :: (v 0 >>> 8).toUInt8 :: image (fun j ↦ v j.succ) := by
      simp [image, List.ofFn_succ]
    rw [hi]
    refine Fin.cases ?_ ?_ i
    · exact ⟨rfl, rfl⟩
    · intro j
      exact ih (fun j ↦ v j.succ) j

theorem view_image {n : ℕ} (v : Fin n → UInt16) : view (image v) n = v := by
  funext i
  obtain ⟨hlo, hhi⟩ := image_getD v i
  rw [view, hlo, hhi]
  generalize v i = x
  apply UInt16.toNat_inj.mp
  have hx := x.toNat_lt
  simp only [UInt16.toNat_add, UInt8.toNat_toUInt16, UInt16.toNat_toUInt8, UInt16.toNat_shiftLeft,
    UInt16.toNat_shiftRight]
  simp only [Nat.shiftRight_eq_div_pow, Nat.shiftLeft_eq]
  have h8 : (8 : UInt16).toNat % 16 = 8 := rfl
  rw [h8]
  omega

theorem mod_toNat {Q : ℕ} (hQ : 0 < Q) (hQ' : Q ≤ 2 ^ 15) (value : UInt16) :
    (mod Q value).toNat = value.toNat % Q := by
  have h := Nat.mod_lt value.toNat hQ
  rw [mod, UInt16.toNat_ofNat', Nat.mod_eq_of_lt (by omega)]

theorem mod_lt {Q : ℕ} (hQ : 0 < Q) (hQ' : Q ≤ 2 ^ 15) (value : UInt16) :
    (mod Q value).toNat < Q := by
  rw [mod_toNat hQ hQ']
  exact Nat.mod_lt _ hQ

theorem halfQ_toNat {Q : ℕ} (hQ' : Q ≤ 2 ^ 15) : (halfQ Q).toNat = Q / 2 := by
  rw [halfQ, UInt16.toNat_ofNat', Nat.mod_eq_of_lt (by omega)]

theorem add_mod_sub {Q p x : ℕ} (hp : p < Q) (hx : x < Q) : ((p + x) % Q + Q - p) % Q = x := by
  rcases Nat.lt_or_ge (p + x) Q with h | h
  · rw [Nat.mod_eq_of_lt h, show p + x + Q - p = x + Q by omega, Nat.add_mod_right,
      Nat.mod_eq_of_lt hx]
  · rw [Nat.mod_eq_sub_mod h, Nat.mod_eq_of_lt (by omega : p + x - Q < Q),
      show p + x - Q + Q - p = x by omega, Nat.mod_eq_of_lt hx]

/-- One entry of the cipher and its decryption. No sum on either side wraps below `2 ^ 15`, and
the noise plus the scaled bit stays below the modulus. -/
theorem entry {Q : ℕ} (hQ : 2 ≤ Q) (hQ' : Q ≤ 2 ^ 15) (p e : UInt16) (bit : Bool)
    (he : e.toNat ≤ high Q true) :
    let b := mod Q (mod Q p + e + (if bit then 1 else 0) * halfQ Q)
    mod Q (b + UInt16.ofNat Q - mod Q p) < halfQ Q ↔ bit = false := by
  intro b
  have hp := mod_lt (by omega) hQ' p
  have hhalf := halfQ_toNat hQ'
  simp only [high, if_true] at he
  obtain ⟨m, hm, hmb⟩ : ∃ m, ((if bit then 1 else 0) * halfQ Q).toNat = m ∧
      m = if bit then Q / 2 else 0 := by
    cases bit <;> simp [hhalf]
  have hmle : m ≤ Q / 2 := by rw [hmb]; split <;> omega
  have hsum : (mod Q p + e + (if bit then 1 else 0) * halfQ Q).toNat =
      (mod Q p).toNat + e.toNat + m := by
    rw [UInt16.toNat_add, UInt16.toNat_add, hm]
    omega
  have hb : b.toNat = ((mod Q p).toNat + e.toNat + m) % Q := by
    rw [mod_toNat (by omega) hQ', hsum]
  have hblt : b.toNat < Q := mod_lt (by omega) hQ' _
  have hdiff : (b + UInt16.ofNat Q - mod Q p).toNat = b.toNat + Q - (mod Q p).toNat := by
    have hadd : (b + UInt16.ofNat Q).toNat = b.toNat + Q := by
      rw [UInt16.toNat_add, UInt16.toNat_ofNat']
      omega
    rw [UInt16.toNat_sub_of_le _ _ (UInt16.le_iff_toNat_le.mpr (by omega)), hadd]
  have hrec : (b.toNat + Q - (mod Q p).toNat) % Q = e.toNat + m := by
    rw [hb, Nat.add_assoc, add_mod_sub hp (by omega)]
  rw [UInt16.lt_iff_toNat_lt, mod_toNat (by omega) hQ', hdiff, hrec, hhalf, hmb]
  cases bit
  · simp; omega
  · simp

/-- Decryption recovers every message that passes the assertion of `encrypt` from the two
strings `encrypt` returns for it. -/
theorem decrypt_encrypt (Q : ℕ) (hQ : 2 ≤ Q) (hQ' : Q ≤ 2 ^ 15) (hM : 8 ∣ M)
    (A : Matrix (Fin M) (Fin N) UInt16) (message : Bytes) (hm : message.length = M / 8)
    (hne : message ≠ []) (s : Secret Q false N) (e : Secret Q true M) :
    (encrypt Q message A s e).map (fun out ↦ decrypt Q A out.1 out.2) = some message := by
  have hlen : message.length ≠ 0 := fun h ↦ hne (List.length_eq_zero_iff.mp h)
  simp only [encrypt, if_pos hlen, Option.map_some, decrypt, view_image, Option.some_inj]
  apply bin2message_ofFn message (by omega)
  intro i hi
  have hms := message2bin_getD (T := UInt16) message hi
  have h := entry hQ hQ' (product A s.val i) (e.val i) (unpack message)[i.val] (e.le_high i)
  simp only at h
  simp only [hms, h]
  cases (unpack message)[i.val] <;> rfl

theorem decrypt_encrypt_letter :
    (encrypt 97 [65] (fun i _ ↦ UInt16.ofNat (65535 - i) : Matrix (Fin 8) (Fin 3) UInt16)
        ⟨fun _ ↦ 96, by decide⟩ ⟨fun _ ↦ 47, by decide⟩).map
      (fun out ↦ decrypt 97 (fun i _ ↦ UInt16.ofNat (65535 - i) : Matrix (Fin 8) (Fin 3) UInt16)
        out.1 out.2) = some [65] :=
  decrypt_encrypt 97 (by decide) (by decide) (by decide) _ [65] (by decide) (by decide) _ _

end ShannonNet.LWE.Cpu
