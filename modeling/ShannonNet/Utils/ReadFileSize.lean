import ShannonNet.Utils.Path

namespace ShannonNet.Utils

/-- A directory entry in the order `readdir` yields them. -/
structure Entry where
  name : Str
  isDirectory : Bool
  size : ℕ

/-- `SECRET_STATUS::NODE_SECRET_VALID` -/
def nodeSecretValid : ℕ := 1

def nodeSecretInvalid : ℕ := 2

/-- The loop body of `readFileSize` for one entry, when no read throws. `value()` of an absent
score is zero. -/
def readEntry (dir : Str) (score : Str → Option ℕ) (e : Entry) : Option (Str × ℕ) :=
  let secretFilePath := Path.join dir e.name
  if e.isDirectory then none
  else if Path.extension secretFilePath ≠ ['.', 'b', 'i', 'n'] then none
  else
    let isValid := (score (Path.fileName secretFilePath)).getD 0
    if isValid ≠ nodeSecretValid then none else some (secretFilePath, e.size)

/-- `readFileSize` on a directory that opens; `score` is the validity zset of the node, with each
score as the `uint16_t` it is read into. -/
def readFileSize (dir : Str) (listing : List Entry) (score : Str → Option ℕ) : List (Str × ℕ) :=
  (listing.filter fun e ↦ e.name ≠ ['.'] ∧ e.name ≠ ['.', '.']).filterMap (readEntry dir score)

def isValidSecret (score : Str → Option ℕ) (e : Entry) : Bool :=
  e.name ≠ ['.'] ∧ e.name ≠ ['.', '.'] ∧ e.isDirectory = false ∧
    Path.extension e.name = ['.', 'b', 'i', 'n'] ∧
    (score (Path.stem e.name)).getD 0 = nodeSecretValid

theorem readEntry_eq (dir : Str) (score : Str → Option ℕ) (e : Entry) (h : '/' ∉ e.name) :
    readEntry dir score e =
      if e.isDirectory = false ∧ Path.extension e.name = ['.', 'b', 'i', 'n'] ∧
        (score (Path.stem e.name)).getD 0 = nodeSecretValid
      then some (Path.join dir e.name, e.size) else none := by
  have hext : Path.extension (Path.join dir e.name) = ['.', 'b', 'i', 'n'] ↔
      Path.extension e.name = ['.', 'b', 'i', 'n'] :=
    Path.extension_join_iff (by decide) (by decide)
  simp only [readEntry, Path.fileName_join h, ne_eq, hext]
  cases e.isDirectory
  · by_cases he : Path.extension e.name = ['.', 'b', 'i', 'n'] <;> simp [he]
  · simp

theorem readFileSize_eq (dir : Str) (listing : List Entry) (score : Str → Option ℕ)
    (h : ∀ e ∈ listing, '/' ∉ e.name) :
    readFileSize dir listing score =
      (listing.filter (isValidSecret score)).map fun e ↦ (Path.join dir e.name, e.size) := by
  rw [readFileSize, List.filterMap_filter, ← List.filterMap_eq_map', List.filterMap_filter]
  apply List.filterMap_congr
  intro e he
  rw [readEntry_eq dir score e (h e he)]
  by_cases hdot : e.name ≠ ['.'] ∧ e.name ≠ ['.', '.']
  · simp [isValidSecret, hdot.1, hdot.2]
  · have hsel : isValidSecret score e = false := by
      simp only [isValidSecret, decide_eq_false_iff_not]
      exact fun hs ↦ hdot ⟨hs.1, hs.2.1⟩
    simp only [hsel, decide_eq_true_eq, if_neg hdot]
    rfl

def bin : Str := ['.', 'b', 'i', 'n']

theorem findLastOf_bin (x : Str) : findLastOf '.' (x ++ bin) = some x.length :=
  findLastOf_append_of_some (k := 0) rfl

theorem stem_bin (x : Str) : Path.stem (x ++ bin) = x := by
  rw [Path.stem, findLastOf_bin]
  exact List.take_left

theorem extension_eq_bin_iff {name : Str} :
    Path.extension name = bin ↔ ∃ x, name = x ++ bin := by
  constructor
  · intro hext
    unfold Path.extension at hext
    cases hfound : findLastOf '.' name with
    | none =>
      rw [hfound] at hext
      cases hext
    | some found =>
      rw [hfound] at hext
      exact ⟨name.take found, by rw [← hext, List.take_append_drop]⟩
  · rintro ⟨x, rfl⟩
    rw [Path.extension, findLastOf_bin]
    exact List.drop_left

/-- A file `x.bin` whose key `x` has the score `NODE_SECRET_VALID`. -/
def Selected (score : Str → Option ℕ) (e : Entry) : Prop :=
  e.isDirectory = false ∧ ∃ x, e.name = x ++ bin ∧ score x = some nodeSecretValid

theorem isValidSecret_iff (score : Str → Option ℕ) (e : Entry) :
    isValidSecret score e = true ↔ Selected score e := by
  have hscore (x : Str) : (score x).getD 0 = nodeSecretValid ↔ score x = some nodeSecretValid := by
    cases score x with
    | none => simp [nodeSecretValid]
    | some v => simp
  rw [isValidSecret, decide_eq_true_iff, Selected, ← bin, extension_eq_bin_iff, hscore]
  constructor
  · rintro ⟨-, -, hfile, ⟨x, hx⟩, hvalid⟩
    rw [hx, stem_bin] at hvalid
    exact ⟨hfile, x, hx, hvalid⟩
  · rintro ⟨hfile, x, hx, hvalid⟩
    have hlength (y : Str) (hy : y.length < 4) : e.name ≠ y := by
      rintro rfl
      have hlen : (x ++ bin).length = x.length + 4 := List.length_append
      rw [hx, hlen] at hy
      omega
    refine ⟨hlength _ (by decide), hlength _ (by decide), hfile, ⟨x, hx⟩, ?_⟩
    rwa [hx, stem_bin]

instance (score : Str → Option ℕ) : DecidablePred (Selected score) :=
  fun e ↦ decidable_of_iff _ (isValidSecret_iff score e)

/-- `readFileSize` selects the valid secrets in listing order, and finds a file under the key it
was saved by. -/
theorem readFileSize_selects (dir : Str) (listing : List Entry) (score : Str → Option ℕ)
    (hname : ∀ e ∈ listing, '/' ∉ e.name) :
    (readFileSize dir listing score).map Prod.fst =
        (listing.filter fun e ↦ Selected score e).map (fun e ↦ Path.join dir e.name) ∧
      ∀ index, '/' ∉ index → Path.fileName (Path.join dir index ++ bin) = index ∧
        ∀ e ∈ listing, e.name = index ++ bin → e.isDirectory = false →
          (Path.join dir index ++ bin ∈ (readFileSize dir listing score).map Prod.fst ↔
            score index = some nodeSecretValid) := by
  have hpaths : (readFileSize dir listing score).map Prod.fst =
      (listing.filter fun e ↦ Selected score e).map fun e ↦ Path.join dir e.name := by
    rw [readFileSize_eq dir listing score hname, List.map_map]
    congr 1
    exact List.filter_congr fun e _ ↦ Bool.eq_iff_iff.mpr (by
      rw [isValidSecret_iff, decide_eq_true_iff])
  have hjoin (x : Str) : Path.join dir x ++ bin = Path.join dir (x ++ bin) := by
    rw [Path.join, Path.join, List.append_assoc, List.cons_append]
  refine ⟨hpaths, fun index hindex ↦ ⟨?_, fun e he hfile hdir ↦ ?_⟩⟩
  · have hslash : '/' ∉ index ++ bin := by
      rw [List.mem_append, not_or]
      exact ⟨hindex, by decide⟩
    rw [hjoin, Path.fileName_join hslash, stem_bin]
  · rw [hpaths, hjoin]
    constructor
    · intro hmem
      obtain ⟨e', he', hpath⟩ := List.mem_map.mp hmem
      obtain ⟨-, x, hx, hvalid⟩ := of_decide_eq_true (List.mem_filter.mp he').2
      rw [hx] at hpath
      have hindex : x = index := by simpa [Path.join] using hpath
      rwa [← hindex]
    · intro hvalid
      refine List.mem_map.mpr ⟨e, List.mem_filter.mpr ⟨he, ?_⟩, by rw [hfile]⟩
      exact decide_eq_true ⟨hdir, index, hfile, hvalid⟩

theorem readFileSize_selects_one :
    (readFileSize ['/', 'd', '.', 'x'] [⟨'a' :: bin, false, 8⟩, ⟨'b' :: bin, false, 8⟩]
        fun x ↦ if x = ['a'] then some 1 else none).map Prod.fst =
      ([⟨'a' :: bin, false, 8⟩, ⟨'b' :: bin, false, 8⟩].filter fun e ↦
        Selected (fun x ↦ if x = ['a'] then some 1 else none) e).map fun e ↦
          Path.join ['/', 'd', '.', 'x'] e.name :=
  (readFileSize_selects _ _ _ (by decide)).1

end ShannonNet.Utils
