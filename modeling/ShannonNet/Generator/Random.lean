import ShannonNet.Config
import Mathlib.Data.List.GetD
import Mathlib.Data.List.Nodup

namespace ShannonNet.Generator

/-- The values `rand()` returns in order after `srand(randomNum)`. -/
abbrev Rand := ℕ → ℕ

/-- The inner loop of `generateRandomFile`: values are drawn until one is not in `randomUMap`.
The stream position is part of the state; `none` means that `fuel` draws were not enough. -/
def drawFile (rand : Rand) (size : ℕ) (randomUMap : List ℕ) : ℕ → ℕ → Option (ℕ × ℕ)
  | 0, _ => none
  | fuel + 1, pos =>
    let random := rand pos % size
    if random ∈ randomUMap then drawFile rand size randomUMap fuel (pos + 1)
    else some (random, pos + 1)

def drawFiles (rand : Rand) (size fuel : ℕ) : ℕ → List ℕ → ℕ → Option (List ℕ × ℕ)
  | 0, randomUMap, pos => some (randomUMap, pos)
  | count + 1, randomUMap, pos =>
    (drawFile rand size randomUMap fuel pos).bind fun r ↦
      drawFiles rand size fuel count (randomUMap ++ [r.1]) r.2

variable (cfg : Config)

/-- `generateRandomFile` on a vector of `FILE_NUM` files or more. -/
def generateRandomFile {α : Type} (rand : Rand) (fuel : ℕ) (pathAndSizeVec : List α) :
    Option (List α × ℕ) :=
  (drawFiles rand pathAndSizeVec.length fuel cfg.fileNum [] 0).map fun r ↦
    (r.1.filterMap (pathAndSizeVec[·]?), r.2)

/-- The files a key is made of, with the stream position reached: all that were read, or drawn
ones when there are more than `FILE_NUM`. -/
def selectFiles {α : Type} (rand : Rand) (fuel : ℕ) (pathAndSizeVec : List α) :
    Option (List α × ℕ) :=
  if pathAndSizeVec.length > cfg.fileNum then generateRandomFile cfg rand fuel pathAndSizeVec
  else some (pathAndSizeVec, 0)

def selectPositions (rand : Rand) (fuel size : ℕ) : Option (List ℕ × ℕ) :=
  if size > cfg.fileNum then drawFiles rand size fuel cfg.fileNum [] 0
  else some (List.range size, 0)

def randomNum : ℕ := cfg.secretFileSize / (cfg.readNum / 8) / cfg.threadNum

def offsetValue (random : ℕ) : ℕ :=
  let random := random % cfg.secretASize
  if random + cfg.readLen > cfg.secretASize then cfg.secretASize - cfg.readLen else random

def generateRandom (rand : Rand) (pos fileNum : ℕ) : List (List ℕ) :=
  (List.range (fileNum * cfg.threadNum)).map fun i ↦
    (List.range (randomNum cfg)).map fun j ↦
      offsetValue cfg (rand (pos + i * randomNum cfg + j))

variable {cfg}

theorem drawFile_lt {rand : Rand} {size fuel pos : ℕ} {used : List ℕ} {r : ℕ × ℕ}
    (hsize : 0 < size) (h : drawFile rand size used fuel pos = some r) :
    r.1 < size ∧ r.1 ∉ used := by
  induction fuel generalizing pos with
  | zero => simp [drawFile] at h
  | succ fuel ih =>
    simp only [drawFile] at h
    split_ifs at h with hu
    · exact ih h
    · cases h
      exact ⟨Nat.mod_lt _ hsize, hu⟩

theorem drawFiles_spec {rand : Rand} {size fuel count pos : ℕ} {used : List ℕ} {r : List ℕ × ℕ}
    (hsize : 0 < size) (hused : ∀ p ∈ used, p < size) (hnd : used.Nodup)
    (h : drawFiles rand size fuel count used pos = some r) :
    (∀ p ∈ r.1, p < size) ∧ r.1.Nodup ∧ r.1.length = used.length + count := by
  induction count generalizing used pos with
  | zero =>
    cases h
    exact ⟨hused, hnd, rfl⟩
  | succ count ih =>
    obtain ⟨d, hd, hrest⟩ := Option.bind_eq_some_iff.mp h
    obtain ⟨hlt, hfresh⟩ := drawFile_lt hsize hd
    have hused' : ∀ p ∈ used ++ [d.1], p < size := by
      intro p hp
      rcases List.mem_append.mp hp with hp | hp
      · exact hused p hp
      · rw [List.mem_singleton.mp hp]
        exact hlt
    have hnd' : (used ++ [d.1]).Nodup :=
      List.nodup_append.mpr ⟨hnd, List.nodup_singleton _, fun a ha b hb ↦ by
        rw [List.mem_singleton.mp hb]
        rintro rfl
        exact hfresh ha⟩
    obtain ⟨h₁, h₂, h₃⟩ := ih hused' hnd' hrest
    refine ⟨h₁, h₂, ?_⟩
    rw [h₃, List.length_append, List.length_singleton]
    omega

theorem selectPositions_spec {rand : Rand} {fuel size : ℕ} {r : List ℕ × ℕ} (hsize : 0 < size)
    (h : selectPositions cfg rand fuel size = some r) :
    (∀ p ∈ r.1, p < size) ∧ r.1.Nodup ∧ 1 ≤ r.1.length ∧ r.1.length ≤ cfg.fileNum := by
  have hpos := cfg.fileNum_pos
  unfold selectPositions at h
  split_ifs at h with hgt
  · obtain ⟨h₁, h₂, h₃⟩ := drawFiles_spec hsize (by simp) List.nodup_nil h
    refine ⟨h₁, h₂, ?_, ?_⟩ <;> rw [h₃, List.length_nil] <;> omega
  · cases h
    exact ⟨fun p hp ↦ List.mem_range.mp hp, List.nodup_range, by rw [List.length_range]; omega,
      by rw [List.length_range]; omega⟩

theorem filterMap_range {α : Type} (files : List α) :
    (List.range files.length).filterMap (files[·]?) = files := by
  induction files with
  | nil => rfl
  | cons x files ih =>
    rw [List.length_cons, List.range_succ_eq_map, List.filterMap_cons, List.filterMap_map]
    simpa [Function.comp_def] using ih

theorem selectFiles_eq {α : Type} (rand : Rand) (fuel : ℕ) (files : List α) :
    selectFiles cfg rand fuel files = (selectPositions cfg rand fuel files.length).map
      fun r ↦ (r.1.filterMap (files[·]?), r.2) := by
  unfold selectFiles selectPositions
  split_ifs
  · rfl
  · rw [Option.map_some, filterMap_range]

theorem mem_of_mem_selectFiles {α : Type} {rand : Rand} {fuel : ℕ} {files : List α}
    {r : List α × ℕ} (h : selectFiles cfg rand fuel files = some r) {x : α} (hx : x ∈ r.1) :
    x ∈ files := by
  rw [selectFiles_eq] at h
  obtain ⟨positions, -, rfl⟩ := Option.map_eq_some_iff.mp h
  obtain ⟨p, -, hp⟩ := List.mem_filterMap.mp hx
  exact List.mem_of_getElem? hp

theorem generateRandom_getD (rand : Rand) (pos : ℕ) {fileNum f t g : ℕ} (hf : f < fileNum)
    (ht : t < cfg.threadNum) (hg : g < randomNum cfg) :
    ((generateRandom cfg rand pos fileNum).getD (f * cfg.threadNum + t) []).getD g 0 =
      offsetValue cfg (rand (pos + (f * cfg.threadNum + t) * randomNum cfg + g)) := by
  have hrow : f * cfg.threadNum + t < fileNum * cfg.threadNum := by
    calc f * cfg.threadNum + t < f * cfg.threadNum + cfg.threadNum := by omega
      _ = (f + 1) * cfg.threadNum := (Nat.succ_mul _ _).symm
      _ ≤ fileNum * cfg.threadNum := Nat.mul_le_mul_right _ hf
  have hr : (generateRandom cfg rand pos fileNum).getD (f * cfg.threadNum + t) [] =
      (List.range (randomNum cfg)).map fun j ↦
        offsetValue cfg (rand (pos + (f * cfg.threadNum + t) * randomNum cfg + j)) := by
    rw [generateRandom, List.getD_eq_getElem _ _ (by simpa using hrow), List.getElem_map,
      List.getElem_range]
  rw [hr, List.getD_eq_getElem _ _ (by simpa using hg), List.getElem_map, List.getElem_range]

end ShannonNet.Generator
