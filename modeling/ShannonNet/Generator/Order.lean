import ShannonNet.Generator.RunningKey
import ShannonNet.Utils.ReadFileSize

namespace ShannonNet.Generator

open Library.Bitset Library.Buffer Utils

variable (cfg : Config)

section Offsets

/-- The offset modulo `availRead` a file gets in group `g` of the part of thread `t`, when `sel`
lists the files of the key in order; `none` when the file is not among them. -/
def fileOffset (sel : List Str) (randomVec : List (List ℕ)) (name : Str) (t g : ℕ) : Option ℕ :=
  if name ∈ sel then
    some ((randomVec.getD (sel.idxOf name * cfg.threadNum + t) []).getD g 0 % availRead cfg)
  else none

def windowParity (file : Bytes) (t offset i : ℕ) : Bool :=
  parity (unpack (readAt file (bufferSize cfg * t + offset * i % availRead cfg) (readChars cfg)))

variable {cfg} {sel sel₁ sel₂ : List Str} {randomVec : List (List ℕ)} {content : Str → Bytes}

variable (cfg sel randomVec) in
theorem fileOffset_isSome (name : Str) (t g : ℕ) :
    (fileOffset cfg sel randomVec name t g).isSome = true ↔ name ∈ sel := by
  unfold fileOffset
  split_ifs with h <;> simp [h]

theorem runningKey_bitAt_names (hsel : sel.Nodup)
    (hsize : ∀ name, (content name).length = cfg.secretASize)
    (hrow : ∀ f < sel.length, ∀ t < cfg.threadNum,
      (randomVec.getD (f * cfg.threadNum + t) []).length = randomNum cfg)
    {t g i : ℕ} (ht : t < cfg.threadNum) (hg : g < randomNum cfg) (hi : i < cfg.readNum) :
    bitAt (runningKey cfg (sel.map content) randomVec)
        (8 * (t * partSize cfg + g * (cfg.readNum / 8)) + i) =
      parity (sel.map fun name ↦
        windowParity cfg (content name) t ((fileOffset cfg sel randomVec name t g).getD 0) i) := by
  rw [runningKey_bitAt cfg (by simpa using fun name _ ↦ hsize name) (by simpa using hrow) ht hg hi]
  congr 1
  apply List.ext_getElem
  · simp
  · intro f hf hf'
    have hlt : f < sel.length := by simpa using hf'
    rw [List.getElem_map, List.getElem_map, List.getElem_range, fileOffset,
      if_pos (List.getElem_mem hlt), hsel.idxOf_getElem f hlt, Option.getD_some, windowParity,
      List.getD_eq_getElem _ _ (by simpa using hlt), List.getElem_map]
    simp only [windowOffset, Nat.mod_mul_mod]

theorem runningKey_eq_of_offsets (h₁ : sel₁.Nodup) (h₂ : sel₂.Nodup)
    (hsize : ∀ name, (content name).length = cfg.secretASize)
    (hrow₁ : ∀ f < sel₁.length, ∀ t < cfg.threadNum,
      (randomVec.getD (f * cfg.threadNum + t) []).length = randomNum cfg)
    (hrow₂ : ∀ f < sel₂.length, ∀ t < cfg.threadNum,
      (randomVec.getD (f * cfg.threadNum + t) []).length = randomNum cfg)
    (h : ∀ name, ∀ t < cfg.threadNum, ∀ g < randomNum cfg,
      fileOffset cfg sel₁ randomVec name t g = fileOffset cfg sel₂ randomVec name t g) :
    runningKey cfg (sel₁.map content) randomVec = runningKey cfg (sel₂.map content) randomVec := by
  have hbyte := cfg.bit_dvd_readNum
  apply ext_bitAt
  · rw [runningKey_length, runningKey_length]
  · intro pos hpos
    rw [runningKey_length] at hpos
    obtain ⟨t, ⟨ht, g, hg, j, hj, hb⟩, _⟩ := byte_position cfg (b := pos / 8) (by omega)
    have hpos' : pos = 8 * (t * partSize cfg + g * (cfg.readNum / 8)) +
      (8 * j + pos % 8) := by omega
    have hi : 8 * j + pos % 8 < cfg.readNum := by omega
    rw [hpos', runningKey_bitAt_names h₁ hsize hrow₁ ht hg hi,
      runningKey_bitAt_names h₂ hsize hrow₂ ht hg hi]
    have hmem (name : Str) : name ∈ sel₁ ↔ name ∈ sel₂ := by
      rw [← fileOffset_isSome cfg sel₁ randomVec name t g,
        h name t ht g hg, fileOffset_isSome]
    have hperm : sel₁.Perm sel₂ := (List.perm_ext_iff_of_nodup h₁ h₂).mpr hmem
    simp only [h _ t ht g hg]
    exact parity_perm (hperm.map _)

/-- Content that tells two offsets of one file apart: a single bit at the start of the first
window of the chunk. -/
def spikeAt (cfg : Config) (name : Str) (t offset : ℕ) : Str → Bytes := fun n ↦
  if n = name then spike cfg.secretASize (bufferSize cfg * t + offset) else zeros cfg.secretASize

theorem spikeAt_length (name : Str) (t offset : ℕ) (n : Str) :
    (spikeAt cfg name t offset n).length = cfg.secretASize := by
  unfold spikeAt
  split_ifs
  · exact spike_length _ _
  · exact zeros_length _

theorem windowParity_spikeAt {name n : Str} {t a b : ℕ} (ht : t < cfg.threadNum)
    (hb : b < availRead cfg) :
    windowParity cfg (spikeAt cfg name t a n) t b 1 =
      (decide (n = name) && decide (b ≤ a ∧ a < b + readChars cfg)) := by
  have hchunk := bufferSize_mul_le cfg ht
  have hin : b + readChars cfg ≤ bufferSize cfg := by
    unfold availRead at hb
    omega
  rw [windowParity, Nat.mul_one, Nat.mod_eq_of_lt hb]
  unfold spikeAt
  by_cases hn : n = name
  · rw [if_pos hn, parity_readAt_spike (by omega)]
    simp only [hn, decide_true, Bool.true_and, decide_eq_decide]
    omega
  · rw [if_neg hn, readAt_zeros, parity_zeros]
    simp [hn]

theorem fileOffset_lt {name : Str} {t g a : ℕ}
    (h : fileOffset cfg sel randomVec name t g = some a) :
    a < availRead cfg := by
  unfold fileOffset at h
  split_ifs at h
  rw [← Option.some.inj h]
  exact Nat.mod_lt _ (availRead_pos cfg)

def covers (cfg : Config) (a : ℕ) : Option ℕ → Bool
  | some b => decide (b ≤ a ∧ a < b + readChars cfg)
  | none => false

theorem runningKey_spikeAt (hsel : sel.Nodup)
    (hrow : ∀ f < sel.length, ∀ t < cfg.threadNum,
      (randomVec.getD (f * cfg.threadNum + t) []).length = randomNum cfg)
    {name : Str} {t g a : ℕ} (ht : t < cfg.threadNum) (hg : g < randomNum cfg) :
    bitAt (runningKey cfg (sel.map (spikeAt cfg name t a)) randomVec)
        (8 * (t * partSize cfg + g * (cfg.readNum / 8)) + 1) =
      covers cfg a (fileOffset cfg sel randomVec name t g) := by
  have hone : 1 < cfg.readNum := by
    have := cfg.readNum_pos
    have := cfg.bit_dvd_readNum
    omega
  have hlt (n : Str) : (fileOffset cfg sel randomVec n t g).getD 0 < availRead cfg := by
    cases h : fileOffset cfg sel randomVec n t g with
    | some b => exact fileOffset_lt h
    | none => exact availRead_pos cfg
  rw [runningKey_bitAt_names hsel (spikeAt_length name t a) hrow ht hg hone,
    parity_map_single hsel (a := name) (fun n _ hne ↦ by
      rw [windowParity_spikeAt ht (hlt n)]
      simp [hne])]
  rw [windowParity_spikeAt ht (hlt name)]
  unfold fileOffset
  split_ifs <;> simp [covers]

/-- Different offsets are told apart by some byte: the smaller one covers it, and the other one
does not reach back to it. -/
theorem exists_covers_ne {u v : Option ℕ} (h : u ≠ v) : ∃ a, covers cfg a u ≠ covers cfg a v := by
  have hchars : 0 < readChars cfg := by
    have := cfg.readLen_ge
    unfold readChars
    omega
  match u, v, h with
  | none, none, h => exact absurd rfl h
  | none, some b, _ => exact ⟨b, by simp [covers, hchars]⟩
  | some a, none, _ => exact ⟨a, by simp [covers, hchars]⟩
  | some a, some b, h =>
    have hab : a ≠ b := fun hab ↦ h (by rw [hab])
    refine ⟨min a b, ?_⟩
    rcases Nat.lt_or_gt_of_ne hab with hlt | hlt
    · simp [covers, hchars, Nat.min_eq_left (Nat.le_of_lt hlt), hlt]
    · simp [covers, hchars, Nat.min_eq_right (Nat.le_of_lt hlt), hlt]

end Offsets

def RunDir.empty : RunDir := ⟨fun _ _ ↦ none, fun _ ↦ none, none⟩

/-- An iteration of `generateSecretFileScript` from the reading of the directory to the
publication; `file` is the content behind a path. `none` is a stream that never yields enough
different positions within `fuel` draws, or an access out of range. -/
def generate (opens : Opens) (rand : Rand) (fuel : ℕ) (dir : Str) (listing : List Entry)
    (score : Str → Option ℕ) (file : Str → Option Bytes) (d : RunDir) : Option (RunDir × Bool) :=
  let pathAndSizeVec := readFileSize dir listing score
  if pathAndSizeVec = [] then some (d, false)
  else
    (selectFiles cfg rand fuel pathAndSizeVec).bind fun s ↦
      generateKey cfg opens (s.1.map fun p ↦ file p.1) (generateRandom cfg rand s.2 s.1.length) d

/-- The running key one side writes into a fresh directory, when its secret files have the given
content under their names. -/
def sideKey (rand : Rand) (fuel : ℕ) (dir : Str) (listing : List Entry) (score : Str → Option ℕ)
    (content : Str → Bytes) : Option (Option Bytes) :=
  (generate cfg Opens.all rand fuel dir listing score
    (fun path ↦ some (content (Path.basename path))) RunDir.empty).map fun r ↦ r.1.bin

def validNames (listing : List Entry) (score : Str → Option ℕ) : List Str :=
  (listing.filter (isValidSecret score)).map Entry.name

def selectedNames (rand : Rand) (fuel : ℕ) (names : List Str) : Option (List Str × ℕ) :=
  (selectPositions cfg rand fuel names.length).map fun r ↦ (r.1.filterMap (names[·]?), r.2)

/-- The offset modulo `availRead` that the stream and the order of the directory give a file. -/
def secretOffset (rand : Rand) (fuel : ℕ) (listing : List Entry) (score : Str → Option ℕ)
    (name : Str) (t g : ℕ) : Option ℕ :=
  (selectedNames cfg rand fuel (validNames listing score)).bind fun s ↦
    fileOffset cfg s.1 (generateRandom cfg rand s.2 s.1.length) name t g

variable {cfg}

theorem selectedNames_spec {rand : Rand} {fuel : ℕ} {names : List Str} {s : List Str × ℕ}
    (hnd : names.Nodup) (hne : names ≠ []) (h : selectedNames cfg rand fuel names = some s) :
    s.1.Nodup ∧ ∃ r, selectPositions cfg rand fuel names.length = some r ∧ r.2 = s.2 ∧
      s.1 = r.1.filterMap (names[·]?) ∧ s.1.length = r.1.length ∧ s.1 ≠ [] := by
  obtain ⟨r, hr, rfl⟩ := Option.map_eq_some_iff.mp h
  obtain ⟨hlt, hpos, hlen, _⟩ := selectPositions_spec (List.length_pos_iff.mpr hne) hr
  have hsome : r.1.filterMap (names[·]?) = r.1.map fun p ↦ names.getD p [] :=
    Library.Loop.filterMap_some fun p hp ↦ by
      rw [List.getElem?_eq_getElem (hlt p hp), List.getD_eq_getElem _ _ (hlt p hp)]
  refine ⟨?_, r, hr, rfl, rfl, ?_, ?_⟩
  · apply hpos.filterMap
    intro a a' b ha ha'
    obtain ⟨hlta, _⟩ := List.getElem?_eq_some_iff.mp ha
    exact (List.getElem?_inj hlta hnd).mp (ha.trans ha'.symm)
  · simp only [hsome, List.length_map]
  · rw [← List.length_pos_iff]
    simp only [hsome, List.length_map]
    omega

theorem contents_eq (dir : Str) {listing : List Entry} (score : Str → Option ℕ)
    (hname : ∀ e ∈ listing, '/' ∉ e.name) (content : Str → Bytes) (positions : List ℕ) :
    (positions.filterMap ((readFileSize dir listing score)[·]?)).map
      (fun p ↦ some (content (Path.basename p.1))) =
    ((positions.filterMap ((validNames listing score)[·]?)).map content).map some := by
  rw [List.map_filterMap, List.map_filterMap, List.map_filterMap]
  apply List.filterMap_congr
  intro i _
  rw [readFileSize_eq dir listing score hname, validNames, List.getElem?_map, List.getElem?_map,
    Option.map_map, Option.map_map, Option.map_map]
  apply Option.map_congr
  intro e he
  have hmem := List.mem_of_mem_filter (List.mem_of_getElem? he)
  simp only [Function.comp_apply, Path.basename_join (hname e hmem)]

theorem sideKey_eq {rand : Rand} {fuel : ℕ} (dir : Str) {listing : List Entry}
    {score : Str → Option ℕ} (hname : ∀ e ∈ listing, '/' ∉ e.name)
    (hnd : (listing.map Entry.name).Nodup) (content : Str → Bytes) :
    sideKey cfg rand fuel dir listing score content =
      if validNames listing score = [] then some none
      else (selectedNames cfg rand fuel (validNames listing score)).map fun s ↦
        some (runningKey cfg (s.1.map content) (generateRandom cfg rand s.2 s.1.length)) := by
  have hnd' : (validNames listing score).Nodup :=
    hnd.sublist ((List.filter_sublist).map Entry.name)
  have hread := readFileSize_eq dir listing score hname
  by_cases hempty : validNames listing score = []
  · have hfil : listing.filter (isValidSecret score) = [] := List.map_eq_nil_iff.mp hempty
    rw [hfil] at hread
    simp [sideKey, generate, hread, hempty, RunDir.empty]
  rw [if_neg hempty]
  have hfil : listing.filter (isValidSecret score) ≠ [] :=
    fun h ↦ hempty (by rw [validNames, h]; rfl)
  have hlen : (readFileSize dir listing score).length = (validNames listing score).length := by
    rw [hread, validNames, List.length_map, List.length_map]
  have hcontent := contents_eq dir score hname content
  have hne : readFileSize dir listing score ≠ [] := by
    rw [hread]
    simpa using hfil
  simp only [sideKey, generate, if_neg hne, selectFiles_eq, hlen]
  cases hpos : selectPositions cfg rand fuel (validNames listing score).length with
  | none => simp [selectedNames, hpos]
  | some r =>
    have hs : selectedNames cfg rand fuel (validNames listing score) =
        some (r.1.filterMap ((validNames listing score)[·]?), r.2) := by
      simp [selectedNames, hpos]
    obtain ⟨_, r', hr', _, _, hlen', hsne⟩ := selectedNames_spec hnd' hempty hs
    obtain rfl := Option.some.inj (hpos.symm.trans hr')
    have hlen'' : (r.1.filterMap ((readFileSize dir listing score)[·]?)).length =
        (r.1.filterMap ((validNames listing score)[·]?)).length := by
      simpa using congrArg List.length (hcontent r.1)
    simp only [hs, Option.map_some, Option.bind_some, hcontent, hlen'']
    obtain ⟨d', hd', hbin⟩ := generateKey_all cfg
      ((r.1.filterMap ((validNames listing score)[·]?)).map content)
      (generateRandom cfg rand r.2 (r.1.filterMap ((validNames listing score)[·]?)).length)
      RunDir.empty (by simpa using hsne)
      (fun f hf t ht ↦ generateRandom_row cfg rand r.2 (by simpa using hf) ht)
    rw [hd', Option.map_some, hbin]

variable {rand : Rand} {fuel : ℕ} {dir₁ dir₂ : Str} {listing₁ listing₂ : List Entry}
  {score : Str → Option ℕ}

variable (cfg rand fuel) in
theorem selectedNames_perm {names₁ names₂ : List Str} (hperm : names₁.Perm names₂)
    (hnd : names₁.Nodup) (hne : names₁ ≠ []) :
    (selectedNames cfg rand fuel names₁ = none ∧ selectedNames cfg rand fuel names₂ = none) ∨
    ∃ sel₁ sel₂ pos, selectedNames cfg rand fuel names₁ = some (sel₁, pos) ∧
      selectedNames cfg rand fuel names₂ = some (sel₂, pos) ∧ sel₁.Nodup ∧ sel₂.Nodup ∧
      sel₁.length = sel₂.length := by
  have hne₂ : names₂ ≠ [] := fun h ↦ hne (List.perm_nil.mp (h ▸ hperm))
  cases hpos : selectPositions cfg rand fuel names₁.length with
  | none =>
    left
    rw [selectedNames, selectedNames, ← hperm.length_eq, hpos]
    exact ⟨rfl, rfl⟩
  | some r =>
    right
    have hs₁ : selectedNames cfg rand fuel names₁ = some (r.1.filterMap (names₁[·]?), r.2) := by
      rw [selectedNames, hpos, Option.map_some]
    have hs₂ : selectedNames cfg rand fuel names₂ = some (r.1.filterMap (names₂[·]?), r.2) := by
      rw [selectedNames, ← hperm.length_eq, hpos, Option.map_some]
    obtain ⟨hnd₁, r₁, hr₁, _, _, hlen₁, _⟩ := selectedNames_spec hnd hne hs₁
    obtain ⟨hnd₂, r₂, hr₂, _, _, hlen₂, _⟩ := selectedNames_spec (hperm.nodup_iff.mp hnd) hne₂ hs₂
    obtain rfl := Option.some.inj (hpos.symm.trans hr₁)
    obtain rfl := Option.some.inj ((hperm.length_eq ▸ hpos).symm.trans hr₂)
    exact ⟨_, _, _, hs₁, hs₂, hnd₁, hnd₂, hlen₁.trans hlen₂.symm⟩

variable (dir₁ dir₂) in
theorem sideKeys_of_selected (hperm : listing₁.Perm listing₂) (hname : ∀ e ∈ listing₁, '/' ∉ e.name)
    (hnd : (listing₁.map Entry.name).Nodup) (hne : validNames listing₁ score ≠ [])
    {sel₁ sel₂ : List Str} {pos : ℕ}
    (hs₁ : selectedNames cfg rand fuel (validNames listing₁ score) = some (sel₁, pos))
    (hs₂ : selectedNames cfg rand fuel (validNames listing₂ score) = some (sel₂, pos))
    (hlen : sel₁.length = sel₂.length) (content : Str → Bytes) :
    let randomVec := generateRandom cfg rand pos sel₁.length
    sideKey cfg rand fuel dir₁ listing₁ score content =
        some (some (runningKey cfg (sel₁.map content) randomVec)) ∧
      sideKey cfg rand fuel dir₂ listing₂ score content =
        some (some (runningKey cfg (sel₂.map content) randomVec)) ∧
      ∀ name t g,
        secretOffset cfg rand fuel listing₁ score name t g =
          fileOffset cfg sel₁ randomVec name t g ∧
        secretOffset cfg rand fuel listing₂ score name t g =
          fileOffset cfg sel₂ randomVec name t g := by
  have hne₂ : validNames listing₂ score ≠ [] := fun h ↦
    hne (List.perm_nil.mp (h ▸ (hperm.filter _).map Entry.name))
  refine ⟨?_, ?_, fun name t g ↦ ⟨?_, ?_⟩⟩
  · rw [sideKey_eq dir₁ hname hnd, if_neg hne, hs₁, Option.map_some]
  · rw [sideKey_eq dir₂ (fun e he ↦ hname e (hperm.mem_iff.mpr he))
      ((hperm.map Entry.name).nodup_iff.mp hnd), if_neg hne₂, hs₂, Option.map_some, hlen]
  · rw [secretOffset, hs₁, Option.bind_some]
  · rw [secretOffset, hs₂, Option.bind_some, hlen]

theorem secretOffset_eq {listing : List Entry} {sel : List Str} {pos f t g : ℕ}
    (hs : selectedNames cfg rand fuel (validNames listing score) = some (sel, pos))
    (hsel : sel.Nodup) (hf : f < sel.length) (ht : t < cfg.threadNum) (hg : g < randomNum cfg) :
    secretOffset cfg rand fuel listing score sel[f] t g =
      some (offsetValue cfg (rand (pos + (f * cfg.threadNum + t) * randomNum cfg + g)) %
        availRead cfg) := by
  rw [secretOffset, hs, Option.bind_some, fileOffset, if_pos (List.getElem_mem hf),
    hsel.idxOf_getElem f hf, generateRandom_getD rand pos hf ht hg]

theorem selected_rows {sel : List Str} {k pos : ℕ} (hk : sel.length = k) :
    ∀ f < sel.length, ∀ t < cfg.threadNum,
      ((generateRandom cfg rand pos k).getD (f * cfg.threadNum + t) []).length = randomNum cfg :=
  fun _ hf _ ht ↦ generateRandom_row cfg rand pos (hk ▸ hf) ht

theorem sideKey_ne (hperm : listing₁.Perm listing₂) (hname : ∀ e ∈ listing₁, '/' ∉ e.name)
    (hnd : (listing₁.map Entry.name).Nodup) {name : Str} {t g a : ℕ} (ht : t < cfg.threadNum)
    (hg : g < randomNum cfg)
    (h : covers cfg a (secretOffset cfg rand fuel listing₁ score name t g) ≠
      covers cfg a (secretOffset cfg rand fuel listing₂ score name t g)) :
    sideKey cfg rand fuel dir₁ listing₁ score (spikeAt cfg name t a) ≠
      sideKey cfg rand fuel dir₂ listing₂ score (spikeAt cfg name t a) := by
  have hvalid : (validNames listing₁ score).Perm (validNames listing₂ score) :=
    (hperm.filter _).map _
  by_cases hne : validNames listing₁ score = []
  · have hne₂ : validNames listing₂ score = [] := List.perm_nil.mp (hne ▸ hvalid).symm
    rw [secretOffset, secretOffset, hne, hne₂] at h
    exact absurd rfl h
  have hndv : (validNames listing₁ score).Nodup := hnd.sublist (List.filter_sublist.map Entry.name)
  rcases selectedNames_perm cfg rand fuel hvalid hndv hne with
    ⟨hs₁, hs₂⟩ | ⟨sel₁, sel₂, pos, hs₁, hs₂, hnd₁, hnd₂, hlen⟩
  · rw [secretOffset, secretOffset, hs₁, hs₂] at h
    exact absurd rfl h
  · obtain ⟨hk₁, hk₂, hoff⟩ := sideKeys_of_selected dir₁ dir₂ hperm hname hnd
      hne hs₁ hs₂ hlen (spikeAt cfg name t a)
    rw [(hoff name t g).1, (hoff name t g).2, ← runningKey_spikeAt hnd₁ (selected_rows rfl) ht hg,
      ← runningKey_spikeAt hnd₂ (selected_rows hlen.symm) ht hg] at h
    rw [hk₁, hk₂]
    exact fun heq ↦ h (by rw [Option.some.inj (Option.some.inj heq)])

/-- The two sides write the same running key for every content of the valid secrets exactly when
the stream and the two orders of the directory give every file the same offsets, modulo the
`availRead` they are taken by, in every group of every part, where a file that is not drawn has
none. -/
theorem running_key_agrees_iff (cfg : Config) (rand : Rand) (fuel : ℕ) (dir₁ dir₂ : Str)
    (listing₁ listing₂ : List Entry) (score : Str → Option ℕ) (hperm : listing₁.Perm listing₂)
    (hname : ∀ e ∈ listing₁, '/' ∉ e.name) (hnd : (listing₁.map Entry.name).Nodup) :
    (∀ content : Str → Bytes, (∀ name, (content name).length = cfg.secretASize) →
      sideKey cfg rand fuel dir₁ listing₁ score content =
        sideKey cfg rand fuel dir₂ listing₂ score content) ↔
    ∀ name, ∀ t < cfg.threadNum, ∀ g < randomNum cfg,
      secretOffset cfg rand fuel listing₁ score name t g =
        secretOffset cfg rand fuel listing₂ score name t g := by
  constructor
  · intro h name t ht g hg
    by_contra hne
    obtain ⟨a, ha⟩ := exists_covers_ne hne
    exact sideKey_ne hperm hname hnd ht hg ha (h _ (spikeAt_length name t a))
  · intro h content hsize
    have hvalid : (validNames listing₁ score).Perm (validNames listing₂ score) :=
      (hperm.filter _).map _
    have hnd₂ := (hperm.map Entry.name).nodup_iff.mp hnd
    have hname₂ : ∀ e ∈ listing₂, '/' ∉ e.name := fun e he ↦ hname e (hperm.mem_iff.mpr he)
    by_cases hne : validNames listing₁ score = []
    · have hne₂ : validNames listing₂ score = [] := List.perm_nil.mp (hne ▸ hvalid).symm
      rw [sideKey_eq dir₁ hname hnd, sideKey_eq dir₂ hname₂ hnd₂, if_pos hne, if_pos hne₂]
    have hndv : (validNames listing₁ score).Nodup :=
      hnd.sublist (List.filter_sublist.map Entry.name)
    rcases selectedNames_perm cfg rand fuel hvalid hndv hne with
      ⟨hs₁, hs₂⟩ | ⟨sel₁, sel₂, pos, hs₁, hs₂, hnd₁, hnd₂', hlen⟩
    · have hne₂ : validNames listing₂ score ≠ [] := fun h' ↦
        hne (List.perm_nil.mp (h' ▸ hvalid))
      rw [sideKey_eq dir₁ hname hnd, sideKey_eq dir₂ hname₂ hnd₂, if_neg hne, if_neg hne₂, hs₁, hs₂]
    · obtain ⟨hk₁, hk₂, hoff⟩ := sideKeys_of_selected dir₁ dir₂ hperm hname hnd
        hne hs₁ hs₂ hlen content
      rw [hk₁, hk₂, runningKey_eq_of_offsets hnd₁ hnd₂' hsize (selected_rows rfl)
        (selected_rows hlen.symm) fun name t ht g hg ↦ by
          rw [← (hoff name t g).1, ← (hoff name t g).2, h name t ht g hg]]

def secretEntry (c : Char) : Entry := ⟨[c, '.', 'b', 'i', 'n'], false, Config.release.secretASize⟩

/-- The validity zset in which only the first file is VALID. -/
def oneValid (index : Str) : Option ℕ := if index = ['a'] then some 1 else some 2

/-- With one VALID file the order the iterators yield it in does not matter. -/
theorem running_key_agrees_iff_one :
    validNames [secretEntry 'b', secretEntry 'a'] oneValid = [(secretEntry 'a').name] ∧
    ∀ content : Str → Bytes, (∀ name, (content name).length = Config.release.secretASize) →
      sideKey Config.release id 0 ['s'] [secretEntry 'a', secretEntry 'b'] oneValid content =
        sideKey Config.release id 0 ['c'] [secretEntry 'b', secretEntry 'a'] oneValid content :=
  ⟨by decide, (running_key_agrees_iff Config.release id 0 ['s'] ['c'] _ _ _ (List.Perm.swap _ _ _)
    (by decide) (by decide)).mpr fun _ _ _ _ _ ↦ rfl⟩

/-- With the stream `0, 1, 2, …` the first of two files gets offset 0 in the first group and the
second one offset `2 ^ 19`, so a secret whose only bit stands in its first byte makes different
keys when the iterators disagree. -/
theorem running_key_order_matters :
    let content := spikeAt Config.release ['a', '.', 'b', 'i', 'n'] 0 0
    (∀ name, (content name).length = Config.release.secretASize) ∧
      sideKey Config.release id 0 ['s'] [secretEntry 'a', secretEntry 'b']
        (fun _ ↦ some 1) content ≠
        sideKey Config.release id 0 ['c'] [secretEntry 'b', secretEntry 'a'] (fun _ ↦ some 1)
          content := by
  have hnum : 0 < randomNum Config.release := by
    norm_num [randomNum, Config.secretFileSize, Config.m, Config.release]
  have hab : selectedNames Config.release id 0
      (validNames [secretEntry 'a', secretEntry 'b'] fun _ ↦ some 1) =
      some ([(secretEntry 'a').name, (secretEntry 'b').name], 0) := rfl
  have hba : selectedNames Config.release id 0
      (validNames [secretEntry 'b', secretEntry 'a'] fun _ ↦ some 1) =
      some ([(secretEntry 'b').name, (secretEntry 'a').name], 0) := rfl
  refine ⟨spikeAt_length _ _ _, sideKey_ne (g := 0) (List.Perm.swap _ _ _) (by decide) (by decide)
    Config.release.threadNum_pos hnum ?_⟩
  have hfirst := secretOffset_eq (f := 0) hab (by decide) (by decide)
    Config.release.threadNum_pos hnum
  have hsecond := secretOffset_eq (f := 1) hba (by decide) (by decide)
    Config.release.threadNum_pos hnum
  simp only [List.getElem_cons_zero, List.getElem_cons_succ] at hfirst hsecond
  rw [show (['a', '.', 'b', 'i', 'n'] : Str) = (secretEntry 'a').name from rfl, hfirst, hsecond]
  norm_num [covers, offsetValue, randomNum, availRead, bufferSize, readChars, Config.secretFileSize,
    Config.m, Config.release]

end ShannonNet.Generator
