import ShannonNet.Generator.Merge

namespace ShannonNet.Generator

open Library.Bitset Library.Buffer

variable (cfg : Config)

theorem bufferSize_mul_le {t : ℕ} (ht : t < cfg.threadNum) :
    bufferSize cfg * t + bufferSize cfg ≤ cfg.secretASize := by
  have hle : bufferSize cfg * (t + 1) ≤ bufferSize cfg * cfg.threadNum := Nat.mul_le_mul_left _ ht
  have hdiv : bufferSize cfg * cfg.threadNum ≤ cfg.secretASize := by
    unfold bufferSize
    split_ifs with h
    · exact Nat.div_mul_le_self _ _
    · rw [show cfg.threadNum = 1 by omega, Nat.mul_one]
  rw [Nat.mul_succ] at hle
  omega

theorem readAt_chunk {file : Bytes} (hsize : file.length = cfg.secretASize) {t : ℕ}
    (ht : t < cfg.threadNum) (random i : ℕ) :
    readAt (load (bufferSize cfg) file (bufferSize cfg * t)) (windowOffset cfg random i)
      (readChars cfg) =
      readAt file (bufferSize cfg * t + windowOffset cfg random i) (readChars cfg) := by
  rw [load_eq_readAt (by rw [hsize]; exact bufferSize_mul_le cfg ht),
    readAt_readAt (window_inside cfg random i)]

theorem part_bitAt (secrets : List Bytes) (randomVec : List (List ℕ)) {t pos : ℕ}
    (hpos : pos < 8 * partSize cfg) :
    bitAt (part cfg secrets randomVec t) pos =
      parity ((tmpKeys cfg secrets randomVec t).map fun b ↦ bitAt b pos) := by
  rw [bitAt, part, List.getD_eq_getElem _ _ (by rw [List.length_map, List.length_range]; omega),
    List.getElem_map, List.getElem_range, bit_xorAll]
  rfl

theorem runningKey_bitAt {secrets : List Bytes} {randomVec : List (List ℕ)}
    (hsize : ∀ file ∈ secrets, file.length = cfg.secretASize)
    (hrow : ∀ f < secrets.length, ∀ t < cfg.threadNum,
      (randomVec.getD (f * cfg.threadNum + t) []).length = randomNum cfg)
    {t g i : ℕ} (ht : t < cfg.threadNum) (hg : g < randomNum cfg) (hi : i < cfg.readNum) :
    bitAt (runningKey cfg secrets randomVec) (8 * (t * partSize cfg + g * (cfg.readNum / 8)) + i) =
      parity ((List.range secrets.length).map fun f ↦
        parity (unpack (readAt (secrets.getD f []) (bufferSize cfg * t +
          windowOffset cfg ((randomVec.getD (f * cfg.threadNum + t) []).getD g 0) i)
            (readChars cfg)))) := by
  have hdvd := cfg.bit_dvd_readNum
  have hin : 8 * (g * (cfg.readNum / 8)) + i < 8 * partSize cfg := by
    have h := Nat.mul_le_mul_right (cfg.readNum / 8) (Nat.succ_le_of_lt hg)
    rw [randomNum_mul, Nat.succ_mul] at h
    omega
  rw [Nat.mul_add, Nat.add_assoc, runningKey,
    flatMap_bitAt _ _ _ (fun t _ ↦ part_length cfg secrets randomVec t) t _ (by simpa using ht) hin,
    List.getElem_range, part_bitAt cfg secrets randomVec hin, tmpKeys, List.map_map]
  congr 1
  apply List.map_congr_left
  intro f hf
  have hf' := List.mem_range.mp hf
  have hlen := hrow f hf' t ht
  have hmem : secrets.getD f [] ∈ secrets := by
    rw [List.getD_eq_getElem _ _ hf']
    exact List.getElem_mem hf'
  rw [Function.comp_apply, tmpSecret_bitAt cfg _ _ _ g i (by rw [hlen]; exact hg) hi,
    readAt_chunk cfg (hsize _ hmem) ht, List.getD_eq_getElem _ 0 (by rw [hlen]; exact hg)]

theorem generateRandom_row (rand : Rand) (pos : ℕ) {fileNum f t : ℕ} (hf : f < fileNum)
    (ht : t < cfg.threadNum) :
    ((generateRandom cfg rand pos fileNum).getD (f * cfg.threadNum + t) []).length =
    randomNum cfg := by
  have hrow : f * cfg.threadNum + t < fileNum * cfg.threadNum := by
    calc f * cfg.threadNum + t < f * cfg.threadNum + cfg.threadNum := by omega
      _ = (f + 1) * cfg.threadNum := (Nat.succ_mul _ _).symm
      _ ≤ fileNum * cfg.threadNum := Nat.mul_le_mul_right _ hf
  rw [List.getD_eq_getElem _ _ (by simpa [generateRandom] using hrow)]
  simp [generateRandom]

theorem byte_position {b : ℕ} (hb : b < cfg.secretFileSize) :
    ∃! t, t < cfg.threadNum ∧ ∃ g < randomNum cfg, ∃ j < cfg.readNum / 8,
      b = t * partSize cfg + g * (cfg.readNum / 8) + j := by
  have hmul := partSize_mul cfg
  have hgroup := randomNum_mul cfg
  have hpart : 0 < partSize cfg := by
    rcases Nat.eq_zero_or_pos (partSize cfg) with h | h
    · rw [h, Nat.mul_zero] at hmul
      omega
    · exact h
  have hbyte : 0 < cfg.readNum / 8 := by
    rcases Nat.eq_zero_or_pos (cfg.readNum / 8) with h | h
    · rw [h, Nat.mul_zero] at hgroup
      omega
    · exact h
  have hmod := Nat.mod_lt b hpart
  refine ⟨b / partSize cfg, ⟨?_, b % partSize cfg / (cfg.readNum / 8), ?_,
    b % partSize cfg % (cfg.readNum / 8), Nat.mod_lt _ hbyte, ?_⟩, ?_⟩
  · exact Nat.div_lt_of_lt_mul (by rw [Nat.mul_comm, hmul]; exact hb)
  · exact Nat.div_lt_of_lt_mul (by rw [Nat.mul_comm, hgroup]; exact hmod)
  · rw [Nat.add_assoc, Nat.mul_comm _ (cfg.readNum / 8), Nat.div_add_mod, Nat.mul_comm,
      Nat.div_add_mod]
  · rintro t ⟨_, g, hg, j, hj, rfl⟩
    have h := Nat.mul_le_mul_right (cfg.readNum / 8) (Nat.succ_le_of_lt hg)
    rw [hgroup, Nat.succ_mul] at h
    rw [Nat.add_assoc, Nat.mul_comm, Nat.mul_add_div hpart, Nat.div_eq_of_lt (by omega),
      Nat.add_zero]

/-- The running key of any number of secret files, when every open succeeds: its size, the part
each of its bytes comes from, and each of its bits as the exclusive or over the files of the
parity of one window of the chunk, with every window inside the chunk. -/
theorem running_key_bits (secrets : List Bytes) (hk : secrets ≠ [])
    (hsize : ∀ file ∈ secrets, file.length = cfg.secretASize) (rand : Rand) (pos : ℕ) (d : RunDir) :
    let randomVec := generateRandom cfg rand pos secrets.length
    let r (f t g : ℕ) := (randomVec.getD (f * cfg.threadNum + t) []).getD g 0
    let o (f t g i : ℕ) := (r f t g * i) % (bufferSize cfg - cfg.readLen / 8)
    ∃ d' key, generateKey cfg Opens.all (secrets.map some) randomVec d = some (d', true) ∧
      d'.bin = some key ∧ key.length = cfg.secretFileSize ∧
      (∀ b < cfg.secretFileSize, ∃! t, t < cfg.threadNum ∧ ∃ g < randomNum cfg,
        ∃ j < cfg.readNum / 8, b = t * partSize cfg + g * (cfg.readNum / 8) + j) ∧
      ∀ t < cfg.threadNum, ∀ g < randomNum cfg, ∀ i < cfg.readNum,
        (∀ f < secrets.length, o f t g i + cfg.readLen / 8 ≤ bufferSize cfg) ∧
        bitAt key (8 * (t * partSize cfg + g * (cfg.readNum / 8)) + i) =
          parity ((List.range secrets.length).map fun f ↦
            parity (unpack (readAt (secrets.getD f []) (bufferSize cfg * t + o f t g i)
              (cfg.readLen / 8)))) := by
  intro randomVec r o
  have hrow : ∀ f < secrets.length, ∀ t < cfg.threadNum,
      (randomVec.getD (f * cfg.threadNum + t) []).length = randomNum cfg :=
    fun f hf t ht ↦ generateRandom_row cfg rand pos hf ht
  obtain ⟨d', hd', hbin⟩ := generateKey_all cfg secrets randomVec d hk hrow
  refine ⟨d', _, hd', hbin, runningKey_length cfg secrets randomVec,
    fun b hb ↦ byte_position cfg hb,
    fun t ht g hg i hi ↦ ⟨fun f _ ↦ window_inside cfg (r f t g) i, ?_⟩⟩
  exact runningKey_bitAt cfg hsize hrow ht hg hi

theorem running_key_bits_release :
    ∃ d' key, generateKey Config.release Opens.all
        [some (zeros Config.release.secretASize), some (zeros Config.release.secretASize)]
        (generateRandom Config.release id 0 2) ⟨fun _ _ ↦ none, fun _ ↦ none, none⟩ =
          some (d', true) ∧
      d'.bin = some key ∧ key.length = Config.release.secretFileSize := by
  obtain ⟨d', key, hd, hbin, hlen, -⟩ := running_key_bits Config.release
    [zeros Config.release.secretASize, zeros Config.release.secretASize] (by simp)
    (by simp [zeros_length]) id 0 ⟨fun _ _ ↦ none, fun _ ↦ none, none⟩
  exact ⟨d', key, hd, hbin, hlen⟩

end ShannonNet.Generator
