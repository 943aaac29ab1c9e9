import ShannonNet.Client.Decrypt

namespace ShannonNet.Client

open Library.Bitset Library.Buffer Library.Loop LWE Server

/-- The records `encryptSecrets` and `encryptSecretsGPU` go through, from the offset `process`
starts the thread at. -/
def encryptRange (eachNum runningThreadNum runningThreadId : ℕ) : List ℕ :=
  let offset := eachNum / runningThreadNum * runningThreadId
  let currentNum :=
    if runningThreadId ≠ runningThreadNum - 1 then offset + eachNum / runningThreadNum else eachNum
  List.range' offset (currentNum - offset)

/-- The same of `decryptSecrets` and `decryptSecretsGPU`, which count instead of ending at an
index. Both constants are `uint16_t`, so that no product here reaches `2 ^ 32`. -/
def decryptRange (eachNum runningThreadNum runningThreadId : ℕ) : List ℕ :=
  let offset := eachNum / runningThreadNum * runningThreadId
  let currentNum :=
    if runningThreadId ≠ runningThreadNum - 1 then eachNum / runningThreadNum
    else eachNum - runningThreadId * eachNum / runningThreadNum
  List.range' offset currentNum

theorem encryptSecretsGPU_range (cfg : Config) (data : Bytes) (index r : ℕ)
    (A : Matrix (Fin cfg.m) (Fin cfg.m) UInt8) (coins : ℕ → Coins cfg) :
    let offset := cfg.eachNum / cfg.runningThreadNum * r
    encryptSecretsGPU cfg data index offset r A coins =
      (encryptRange cfg.eachNum cfg.runningThreadNum r).mapM fun i ↦
        (Gpu.encryptGPU cfg.q (readAt data (i * cfg.sLen) cfg.sLen) A (coins i).s (coins i).e).map
          fun vec ↦ ⟨vec.1, vec.2, (index + (i - offset)) % 2 ^ 32⟩ := rfl

theorem decryptSecretsGPU_range (cfg : Config) (data : List SecretDto) (r : ℕ)
    (A : Matrix (Fin cfg.m) (Fin cfg.m) UInt8) :
    decryptSecretsGPU cfg data (cfg.eachNum / cfg.runningThreadNum * r) r A =
      (decryptRange cfg.eachNum cfg.runningThreadNum r).mapM fun i ↦ data[i]?.bind fun secret ↦
        let secretData := Gpu.decryptGPU cfg.q A secret.secretS secret.secretB
        if secret.secretS ≠ [] ∧ secret.secretB ≠ [] ∧ secretData ≠ [] then some secretData
        else none := by
  rw [decryptSecretsGPU, decryptRange, List.range'_eq_map_range, List.mapM_map]
  rfl

theorem encryptRange_of_ne {E R r : ℕ} (hr : r ≠ R - 1) :
    encryptRange E R r = List.range' (E / R * r) (E / R) := by
  rw [encryptRange, if_pos hr, Nat.add_sub_cancel_left]

theorem decryptRange_of_ne {E R r : ℕ} (hr : r ≠ R - 1) :
    decryptRange E R r = List.range' (E / R * r) (E / R) := by
  rw [decryptRange, if_pos hr]

theorem encryptRange_last (E s : ℕ) :
    encryptRange E (s + 1) s =
      List.range' (E / (s + 1) * s) (E / (s + 1) + E % (s + 1)) := by
  have hE := Nat.div_add_mod' E (s + 1)
  rw [Nat.mul_succ, Nat.add_assoc] at hE
  rw [encryptRange, if_neg (by omega), Nat.sub_eq_of_eq_add' hE.symm]

/-- Counting from the share of all the records gives away the remainder but one. -/
theorem decryptRange_last (E s : ℕ) :
    decryptRange E (s + 1) s =
      List.range' (E / (s + 1) * s) (E / (s + 1) + min (E % (s + 1)) 1) := by
  have hE := Nat.div_add_mod' E (s + 1)
  have hlt := Nat.mod_lt E s.succ_pos
  generalize hk : E / (s + 1) = k at hE ⊢
  generalize E % (s + 1) = t at hE hlt ⊢
  have hshare : s * E / (s + 1) = k * s + (t - 1) := by
    rcases Nat.eq_zero_or_pos t with h0 | hpos
    · have hmul : s * E = k * s * (s + 1) := by
        rw [← hE, h0]
        ring
      rw [hmul, Nat.mul_div_cancel _ s.succ_pos, h0]
      rfl
    · obtain ⟨t', ht'⟩ := Nat.exists_eq_succ_of_ne_zero hpos.ne'
      have hmul : s * E = s - t' + (s + 1) * (k * s + t') := by
        obtain ⟨d, hd⟩ := Nat.exists_eq_add_of_le (show t' ≤ s by omega)
        rw [← hE, ht', hd, Nat.add_sub_cancel_left, Nat.succ_eq_add_one]
        ring
      rw [hmul, Nat.add_mul_div_left _ _ s.succ_pos, Nat.div_eq_of_lt (by omega), ht']
      omega
  rw [Nat.mul_succ] at hE
  have hcount : E - (k * s + (t - 1)) = k + min t 1 := by omega
  rw [decryptRange, if_neg (by omega), hshare, hcount, hk]

theorem flatMap_shares {f : ℕ → List ℕ} {k s len : ℕ}
    (hf : ∀ r < s, f r = List.range' (k * r) k) (hlast : f s = List.range' (k * s) len) :
    (List.range (s + 1)).flatMap f = List.range (k * s + len) := by
  have hbefore : (List.range s).flatMap f = List.range (k * s) := by
    rw [← flatMap_range', List.flatMap_def, List.flatMap_def]
    exact congrArg List.flatten (List.map_congr_left fun r hr ↦ hf r (List.mem_range.mp hr))
  rw [List.range_succ, List.flatMap_append, hbefore, List.flatMap_singleton, hlast,
    List.range_eq_range', List.range_eq_range', ← List.range'_append_1, Nat.zero_add]

theorem flatMap_encryptRange (E s : ℕ) :
    (List.range (s + 1)).flatMap (encryptRange E (s + 1)) = List.range E := by
  have hE := Nat.div_add_mod' E (s + 1)
  rw [Nat.mul_succ, Nat.add_assoc] at hE
  rw [flatMap_shares (fun r hr ↦ encryptRange_of_ne (by omega)) (encryptRange_last E s), hE]

theorem flatMap_decryptRange (E s : ℕ) :
    (List.range (s + 1)).flatMap (decryptRange E (s + 1)) =
      List.range (E - (E % (s + 1) - 1)) := by
  rw [flatMap_shares (fun r hr ↦ decryptRange_of_ne (by omega)) (decryptRange_last E s)]
  have hE := Nat.div_add_mod' E (s + 1)
  rw [Nat.mul_succ] at hE
  generalize E / (s + 1) * s = offset, E / (s + 1) = k at hE ⊢
  exact congrArg List.range (by omega)

/-- The two sides split a piece alike exactly when at most one record is left over. -/
theorem same_shares_iff {E R : ℕ} (hR : 1 ≤ R) (hRE : R ≤ E) :
    ((∀ r < R, encryptRange E R r = decryptRange E R r) ∧
      (List.range R).flatMap (encryptRange E R) = List.range E ∧
      (List.range R).flatMap (decryptRange E R) = List.range E) ↔ E % R ≤ 1 := by
  obtain ⟨s, rfl⟩ := Nat.exists_eq_add_of_le' hR
  constructor
  · rintro ⟨-, -, hdecrypt⟩
    have hlength := congrArg List.length (flatMap_decryptRange E s)
    rw [hdecrypt, List.length_range, List.length_range] at hlength
    omega
  · intro hmod
    refine ⟨fun r hr ↦ ?_, flatMap_encryptRange E s, ?_⟩
    · by_cases hlast : r = s
      · subst hlast
        rw [encryptRange_last, decryptRange_last, min_eq_left hmod]
      · rw [encryptRange_of_ne (by omega), decryptRange_of_ne (by omega)]
    · rw [flatMap_decryptRange]
      congr 1
      omega

theorem same_shares_iff_release :
    ((∀ r < 2, encryptRange 1024 2 r = decryptRange 1024 2 r) ∧
      (List.range 2).flatMap (encryptRange 1024 2) = List.range 1024 ∧
      (List.range 2).flatMap (decryptRange 1024 2) = List.range 1024) ↔ 1024 % 2 ≤ 1 :=
  same_shares_iff (by norm_num) (by norm_num)

/-- With five threads the client stops three records short of the end. -/
theorem five_threads_lose_records :
    ¬∀ E R : ℕ, 1 ≤ R → R ≤ E → (∀ r < R, encryptRange E R r = decryptRange E R r) ∧
      (List.range R).flatMap (encryptRange E R) = List.range E ∧
      (List.range R).flatMap (decryptRange E R) = List.range E := by
  intro h
  have hlast := congrArg List.length ((h 1024 5 (by norm_num) (by norm_num)).1 4 (by norm_num))
  simp [encryptRange, decryptRange] at hlast

end ShannonNet.Client
