import ShannonNet.Generator.RunningKey

namespace ShannonNet.Generator

open Library.Bitset Library.Buffer

variable (cfg : Config)

/-- The values `generateRandom` can hand to `processTmpSecret`. -/
def Admissible (random : ℕ) : Prop := ∃ draw, offsetValue cfg draw = random

/-- Bit `i` of group `g` in the file that `processTmpSecret` writes. -/
def keyBit (file : Bytes) (fileIdx threadIdx : ℕ) (vec : List ℕ) (d : RunDir) (g i : ℕ) :
    Option Bool :=
  ((processTmpSecret cfg Opens.all (some file) fileIdx threadIdx vec d).tmp fileIdx threadIdx).map
    fun ss ↦ bitAt ss (8 * (g * (cfg.readNum / 8)) + i)

variable {cfg} {file : Bytes} {fileIdx threadIdx : ℕ} {vec : List ℕ} {d : RunDir} {g i : ℕ}

theorem keyBit_set (hg : g < vec.length) (hi : i < cfg.readNum) (random : ℕ) :
    keyBit cfg file fileIdx threadIdx (vec.set g random) d g i =
      some (parity (unpack (readAt (load (bufferSize cfg) file (bufferSize cfg * threadIdx))
        (windowOffset cfg random i) (readChars cfg)))) := by
  have hg' : g < (vec.set g random).length := by rwa [List.length_set]
  have htmp : (processTmpSecret cfg Opens.all (some file) fileIdx threadIdx (vec.set g random)
      d).tmp fileIdx threadIdx = some (tmpSecret cfg file threadIdx (vec.set g random)) :=
    if_pos ⟨rfl, rfl⟩
  rw [keyBit, htmp, Option.map_some, tmpSecret_bitAt cfg _ _ _ g i hg' hi, List.getElem_set_self]

theorem windowOffset_of_dvd (hi : availRead cfg ∣ i) (random : ℕ) :
    windowOffset cfg random i = 0 :=
  Nat.mod_eq_zero_of_dvd (Dvd.dvd.mul_left hi random)

/-- Where `i` is a multiple of `availRead`, and so for `i = 0`, every value gives the first
window. -/
theorem keyBit_const (hg : g < vec.length) (hi : i < cfg.readNum) (hdvd : availRead cfg ∣ i)
    (r₁ r₂ : ℕ) :
    keyBit cfg file fileIdx threadIdx (vec.set g r₁) d g i =
      keyBit cfg file fileIdx threadIdx (vec.set g r₂) d g i := by
  rw [keyBit_set hg hi, keyBit_set hg hi, windowOffset_of_dvd hdvd, windowOffset_of_dvd hdvd]

theorem admissible_unique (hlen : cfg.secretASize ≤ cfg.readLen) {r₁ r₂ : ℕ}
    (h₁ : Admissible cfg r₁) (h₂ : Admissible cfg r₂) : r₁ = r₂ := by
  have hzero (draw : ℕ) : offsetValue cfg draw = 0 := by
    rw [offsetValue]
    split_ifs with hclamp
    · exact Nat.sub_eq_zero_of_le hlen
    · omega
  obtain ⟨draw₁, rfl⟩ := h₁
  obtain ⟨draw₂, rfl⟩ := h₂
  rw [hzero, hzero]

theorem admissible_of_add_le {random : ℕ} (h : random + cfg.readLen ≤ cfg.secretASize) :
    Admissible cfg random := by
  have hpos := cfg.readLen_ge
  refine ⟨random, ?_⟩
  rw [offsetValue, Nat.mod_eq_of_lt (by omega)]
  exact if_neg (by omega)

/-- A single bit at the start of the chunk lies in the first window and in no other. -/
theorem keyBit_spike (hg : g < vec.length) (hi : i < cfg.readNum)
    (ht : threadIdx < cfg.threadNum) (random : ℕ) :
    keyBit cfg (spike cfg.secretASize (bufferSize cfg * threadIdx)) fileIdx threadIdx
        (vec.set g random) d g i = some (decide (windowOffset cfg random i = 0)) := by
  have hchunk := bufferSize_mul_le cfg ht
  have hwindow := window_inside cfg random i
  have hchars : 0 < readChars cfg := by
    have := cfg.readLen_ge
    unfold readChars
    omega
  rw [keyBit_set hg hi, readAt_chunk cfg (spike_length _ _) ht, parity_readAt_spike (by omega)]
  refine congrArg some (decide_eq_decide.mpr ?_)
  omega

/-- A key bit depends on its random value exactly when its window moves at all. -/
theorem bit_depends_iff (cfg : Config) {threadIdx : ℕ} (ht : threadIdx < cfg.threadNum)
    (fileIdx : ℕ) (vec : List ℕ) (d : RunDir) {g i : ℕ} (hg : g < vec.length)
    (hi : i < cfg.readNum) :
    (∃ file : Bytes, file.length = cfg.secretASize ∧
      ∃ r₁ r₂, Admissible cfg r₁ ∧ Admissible cfg r₂ ∧
        keyBit cfg file fileIdx threadIdx (vec.set g r₁) d g i ≠
          keyBit cfg file fileIdx threadIdx (vec.set g r₂) d g i) ↔
      cfg.readLen < cfg.secretASize ∧ ¬availRead cfg ∣ i := by
  constructor
  · rintro ⟨file, -, r₁, r₂, h₁, h₂, hne⟩
    refine ⟨?_, fun hdvd ↦ hne (keyBit_const hg hi hdvd r₁ r₂)⟩
    by_contra hlen
    exact hne (by rw [admissible_unique (by omega) h₁ h₂])
  · rintro ⟨hlen, hdvd⟩
    refine ⟨_, spike_length cfg.secretASize (bufferSize cfg * threadIdx), 0, 1,
      admissible_of_add_le (by omega), admissible_of_add_le (by omega), ?_⟩
    have hfirst : windowOffset cfg 0 i = 0 := by rw [windowOffset, Nat.zero_mul, Nat.zero_mod]
    have hmoved : windowOffset cfg 1 i ≠ 0 := by
      rw [windowOffset, Nat.one_mul]
      exact fun h ↦ hdvd (Nat.dvd_of_mod_eq_zero h)
    rw [keyBit_spike hg hi ht, keyBit_spike hg hi ht, hfirst]
    simp [hmoved]

theorem bit_depends_iff_release :
    (∃ file : Bytes, file.length = Config.release.secretASize ∧
      ∃ r₁ r₂, Admissible Config.release r₁ ∧ Admissible Config.release r₂ ∧
        keyBit Config.release file 0 1 ([5, 7].set 1 r₁) ⟨fun _ _ ↦ none, fun _ ↦ none, none⟩ 1 3 ≠
          keyBit Config.release file 0 1 ([5, 7].set 1 r₂) ⟨fun _ _ ↦ none, fun _ ↦ none, none⟩
            1 3) ↔
      Config.release.readLen < Config.release.secretASize ∧ ¬availRead Config.release ∣ 3 :=
  bit_depends_iff Config.release (by decide) 0 [5, 7] _ (by decide) (by decide)

/-- The first bit of a group is the parity of the first window of the chunk, whatever was
drawn. -/
theorem first_bit_fixed :
    ¬∀ (vec : List ℕ) (g i : ℕ), g < vec.length → i < Config.release.readNum →
      ∃ file : Bytes, file.length = Config.release.secretASize ∧
        ∃ r₁ r₂, Admissible Config.release r₁ ∧ Admissible Config.release r₂ ∧
          keyBit Config.release file 0 0 (vec.set g r₁) ⟨fun _ _ ↦ none, fun _ ↦ none, none⟩ g i ≠
            keyBit Config.release file 0 0 (vec.set g r₂) ⟨fun _ _ ↦ none, fun _ ↦ none, none⟩
              g i := by
  intro h
  obtain ⟨file, -, r₁, r₂, -, -, hne⟩ := h [0] 0 0 (by decide) (by decide)
  exact hne (keyBit_const (by decide) (by decide) (dvd_zero _) r₁ r₂)

end ShannonNet.Generator
