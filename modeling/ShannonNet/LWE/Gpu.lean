import ShannonNet.Config
import ShannonNet.LWE.Message
import Mathlib.Data.Matrix.Mul

namespace ShannonNet.LWE.Gpu

open Library.Bitset

/-- A conversion to `SAVE_GPU_TYPE`, which is `torch::kUInt8`. -/
def toUInt8 (x : ℤ) : UInt8 := UInt8.ofNat (x % 256).toNat

def exact (c : UInt8) : ℤ := c.toNat

variable {M N : ℕ}

def product (Q : ℕ) (A : Matrix (Fin M) (Fin N) UInt8) (s : Fin N → ℤ) (i : Fin M) : ℤ :=
  (Matrix.mulVec (A.map fun a ↦ exact a % Q) s) i % Q

def fromBlob (str : Bytes) (n : ℕ) (i : Fin n) : UInt8 := str.getD i 0

/-- `LWE::encryptGPU` with the tensors `torch::randint` fills, `s` below `Q` and `e` below
`ceil(Q / 2) - 1`; `none` is the failed `LOG_ASSERT`. -/
def encryptGPU (Q : ℕ) (inMessage : Bytes) (A : Matrix (Fin M) (Fin N) UInt8)
    (s : Fin N → Fin Q) (e : Fin M → Fin (Q / 2 - 1)) : Option (Bytes × Bytes) :=
  if inMessage.length ≠ 0 then
    let vec_m : List UInt16 := message2bin inMessage
    let m (i : Fin M) : UInt8 := toUInt8 (vec_m.getD i 0).toInt16.toInt
    let halfQ : ℤ := (Q / 2 : ℕ)
    let b (i : Fin M) : UInt8 := toUInt8 ((product Q A (fun j ↦ (s j : ℕ)) i + (e i : ℕ) +
      exact (toUInt8 (exact (m i) * halfQ))) % Q)
    some (List.ofFn fun j ↦ toUInt8 (s j : ℕ), List.ofFn b)
  else none

def decryptGPU (Q : ℕ) (A : Matrix (Fin M) (Fin N) UInt8) (in_s in_b : Bytes) : Bytes :=
  let s (j : Fin N) : ℤ := exact (fromBlob in_s N j)
  let b := fromBlob in_b M
  let halfQ : ℤ := (Q / 2 : ℕ)
  bin2message (List.ofFn fun i ↦
    if (exact (b i) - product Q A s i) % Q ≥ halfQ then true else false)

theorem exact_toUInt8 {x : ℤ} (h : 0 ≤ x) (h' : x < 256) : exact (toUInt8 x) = x := by
  rw [exact, toUInt8, UInt8.toNat_ofNat', Int.emod_eq_of_lt h h', Nat.mod_eq_of_lt (by omega)]
  omega

theorem fromBlob_ofFn {n : ℕ} (v : Fin n → UInt8) : fromBlob (List.ofFn v) n = v := by
  funext i
  rw [fromBlob, List.getD_eq_getElem _ _ (by simp), List.getElem_ofFn]

/-- One entry of the cipher: removing the product leaves the noise plus the scaled bit, which
never reaches the modulus. -/
theorem entry {Q : ℕ} (hQ : Q ≤ 256) (p : ℤ) (e : Fin (Q / 2 - 1)) (bit : Bool) :
    (exact (toUInt8 ((p + (e : ℕ) + exact (toUInt8
        (exact (toUInt8 (if bit then 1 else 0)) * (Q / 2 : ℕ)))) % Q)) - p) % Q ≥ (Q / 2 : ℕ) ↔
      bit = true := by
  have he := e.isLt
  obtain ⟨m, hm, hmb⟩ : ∃ m : ℤ, exact (toUInt8 (exact (toUInt8 (if bit then 1 else 0)) *
      (Q / 2 : ℕ))) = m ∧ m = if bit then ((Q / 2 : ℕ) : ℤ) else 0 := by
    refine ⟨_, rfl, ?_⟩
    cases bit
    · simp [exact_toUInt8]
    · simp only [if_true]
      rw [exact_toUInt8 (by omega : (0 : ℤ) ≤ 1) (by omega), one_mul,
        exact_toUInt8 (by omega) (by omega)]
  have hmle : 0 ≤ m ∧ m ≤ (Q / 2 : ℕ) := by
    rw [hmb]
    split <;> omega
  rw [hm, exact_toUInt8 (Int.emod_nonneg _ (by omega))
    ((Int.emod_lt_of_pos _ (by omega)).trans_le (by omega)), Int.emod_sub_emod,
    show p + (e : ℕ) + m - p = (e : ℕ) + m by ring, Int.emod_eq_of_lt (by omega) (by omega), hmb]
  cases bit
  · simp only [Bool.false_eq_true, if_false, iff_false]
    omega
  · simp only [if_true, iff_true]
    omega

theorem message_entry (message : Bytes) {i : ℕ} (hi : i < (unpack message).length) :
    ((message2bin (T := UInt16) message).getD i 0).toInt16.toInt =
      if (unpack message)[i] then 1 else 0 := by
  rw [message2bin_getD message hi]
  split <;> rfl

theorem recover {Q : ℕ} (hQ : Q ≤ 256) (hM : 8 ∣ M) (A : Matrix (Fin M) (Fin N) UInt8)
    {message : Bytes} (hm : message.length = M / 8) (hne : message ≠ []) (s : Fin N → Fin Q)
    (e : Fin M → Fin (Q / 2 - 1)) :
    ∃ out, encryptGPU Q message A s e = some out ∧ decryptGPU Q A out.1 out.2 = message := by
  refine ⟨_, if_pos fun h ↦ hne (List.length_eq_zero_iff.mp h), ?_⟩
  have hs : (fun j ↦ exact (toUInt8 (s j : ℕ))) = fun j ↦ ((s j : ℕ) : ℤ) := by
    funext j
    have hj := (s j).isLt
    exact exact_toUInt8 (by omega) (by omega)
  simp only [decryptGPU, fromBlob_ofFn, hs]
  apply bin2message_ofFn message (by omega)
  intro i hi
  have h := entry hQ (product Q A (fun j ↦ (s j : ℕ)) i) (e i) (unpack message)[i.val]
  simp only [message_entry message hi, h]
  cases (unpack message)[i.val] <;> rfl

theorem encryptGPU_length {Q : ℕ} {A : Matrix (Fin M) (Fin N) UInt8} {message : Bytes}
    {s : Fin N → Fin Q} {e : Fin M → Fin (Q / 2 - 1)} {out : Bytes × Bytes}
    (h : encryptGPU Q message A s e = some out) : out.1.length = N ∧ out.2.length = M := by
  obtain rfl := Option.some.inj (Option.ite_none_right_eq_some.mp h).2
  exact ⟨List.length_ofFn, List.length_ofFn⟩

theorem encryptGPU_bytes {Q : ℕ} (hQ : Q ≤ 256) {A : Matrix (Fin M) (Fin N) UInt8}
    {message : Bytes} {s : Fin N → Fin Q} {e : Fin M → Fin (Q / 2 - 1)} {out : Bytes × Bytes}
    (h : encryptGPU Q message A s e = some out) : ∀ c ∈ out.1 ++ out.2, c.toNat < Q := by
  have below {x : ℤ} (h0 : 0 ≤ x) (hx : x < Q) : (toUInt8 x).toNat < Q := by
    have hx' := exact_toUInt8 h0 (by omega)
    unfold exact at hx'
    omega
  obtain rfl := Option.some.inj (Option.ite_none_right_eq_some.mp h).2
  intro c hc
  rcases List.mem_append.mp hc with h | h
  · obtain ⟨j, rfl⟩ := List.mem_ofFn.mp h
    have hj := (s j).isLt
    exact below (by omega) (by omega)
  · obtain ⟨i, rfl⟩ := List.mem_ofFn.mp h
    have hi := (e i).isLt
    exact below (Int.emod_nonneg _ (by omega)) (Int.emod_lt_of_pos _ (by omega))

/-- The path the server and the client use: every message of a record comes back, and both
strings it travels in hold only values below the modulus, so they fit in seven bits. -/
theorem gpu_round_trip (cfg : Config) (A : Matrix (Fin cfg.m) (Fin N) UInt8) (message : Bytes)
    (hm : message.length = cfg.m / 8) (s : Fin N → Fin cfg.q)
    (e : Fin cfg.m → Fin (cfg.q / 2 - 1)) :
    ∃ out, encryptGPU cfg.q message A s e = some out ∧
      decryptGPU cfg.q A out.1 out.2 = message ∧
      ∀ c ∈ out.1 ++ out.2, c.toNat < cfg.q ∧ c.toNat < 128 := by
  have hQ := cfg.q_le
  have hne : message ≠ [] := by
    rintro rfl
    have hpos := cfg.sLen_pos
    rw [List.length_nil, Config.m, Nat.mul_div_cancel _ (by norm_num)] at hm
    omega
  obtain ⟨out, hout, hdec⟩ := recover (by omega) ⟨cfg.sLen, Nat.mul_comm _ _⟩ A hm hne s e
  refine ⟨out, hout, hdec, ?_⟩
  intro c hc
  have hc := encryptGPU_bytes (by omega) hout c hc
  exact ⟨hc, by omega⟩

theorem gpu_round_trip_release :
    let A : Matrix (Fin Config.release.m) (Fin Config.release.m) UInt8 := fun _ _ ↦ 255
    let message : Bytes := List.replicate 1024 200
    ∃ out, encryptGPU Config.release.q message A (fun _ ↦ ⟨96, by decide⟩)
        (fun _ ↦ ⟨46, by decide⟩) = some out ∧
      decryptGPU Config.release.q A out.1 out.2 = message ∧
      ∀ c ∈ out.1 ++ out.2, c.toNat < Config.release.q ∧ c.toNat < 128 :=
  gpu_round_trip Config.release _ _ (by rw [List.length_replicate]; rfl) _ _

end ShannonNet.LWE.Gpu
