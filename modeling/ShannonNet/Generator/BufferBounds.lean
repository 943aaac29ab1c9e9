import ShannonNet.Generator.Merge

namespace ShannonNet.Generator

open Library.Bitset Library.Buffer Library.Loop

/-- The `bufferVec` of `processBinSecret` behind the loop that reads the `tmp` keys. -/
def readTmp (opens : Opens) (threadIdx fileNum : ℕ) (d : RunDir) : List Bytes :=
  (List.range fileNum).filterMap fun i ↦ if opens.binIn i threadIdx then d.tmp i threadIdx else none

/-- What the exclusive or accesses lies in its buffers: `bufferVec[0]` for the bound of the outer
loop, and `bufferVec[j][i]`. -/
structure InRange (bufferVec : List Bytes) (fileNum : ℕ) : Prop where
  first : 0 < bufferVec.length
  entry : ∀ i < bufferVec[0].length, ∀ j < fileNum, ∃ h : j < bufferVec.length,
    i < bufferVec[j].length

theorem xorColumn_isSome_iff {bufferVec : List Bytes} {fileNum i : ℕ} :
    (xorColumn bufferVec fileNum i).isSome ↔
      ∀ j < fileNum, ∃ h : j < bufferVec.length, i < bufferVec[j].length := by
  have haccess (acc : UInt8) (j : ℕ) :
      (bufferVec[j]?.bind fun buf ↦ buf[i]?.map fun c ↦ acc ^^^ c).isSome ↔
        ∃ h : j < bufferVec.length, i < bufferVec[j].length := by
    by_cases hj : j < bufferVec.length
    · simp [hj]
    · simp [hj]
  rw [xorColumn, foldlM_isSome_iff haccess]
  simp only [List.mem_range]

variable {opens : Opens} {threadIdx fileNum : ℕ} {d : RunDir}

theorem processBinSecret_isSome_iff :
    (processBinSecret opens threadIdx fileNum d).isSome ↔
      InRange (readTmp opens threadIdx fileNum d) fileNum := by
  change ((readTmp opens threadIdx fileNum d)[0]?.bind fun first ↦
    ((List.range first.length).mapM (xorColumn (readTmp opens threadIdx fileNum d) fileNum)).map
      _).isSome ↔ _
  generalize readTmp opens threadIdx fileNum d = bufferVec
  by_cases hfirst : 0 < bufferVec.length
  · rw [List.getElem?_eq_getElem hfirst, Option.bind_some, Option.isSome_map, mapM_isSome_iff]
    simp only [List.mem_range, xorColumn_isSome_iff]
    exact ⟨fun h ↦ ⟨hfirst, h⟩, fun h ↦ h.entry⟩
  · rw [List.getElem?_eq_none (not_lt.mp hfirst)]
    exact ⟨fun h ↦ (by cases h), fun h ↦ absurd h.first hfirst⟩

theorem readTmp_length_le : (readTmp opens threadIdx fileNum d).length ≤ fileNum :=
  (List.length_filterMap_le _ _).trans_eq List.length_range

/-- A file that cannot be read leaves no place in `bufferVec`. -/
theorem readTmp_length_iff :
    (readTmp opens threadIdx fileNum d).length = fileNum ↔
      ∀ f < fileNum, opens.binIn f threadIdx ∧ d.tmp f threadIdx ≠ none := by
  have hlt : (readTmp opens threadIdx fileNum d).length < (List.range fileNum).length ↔
      ∃ f, ∃ _ : f ∈ List.range fileNum,
        (if opens.binIn f threadIdx then d.tmp f threadIdx else none) = none :=
    List.length_filterMap_lt_length_iff_exists
  rw [List.length_range] at hlt
  have hle : (readTmp opens threadIdx fileNum d).length ≤ fileNum := readTmp_length_le
  constructor
  · intro hlength f hf
    by_contra hmiss
    have hshort := hlt.mpr ⟨f, List.mem_range.mpr hf, ?_⟩
    · omega
    · rw [ite_eq_right_iff]
      intro hin
      by_contra htmp
      exact hmiss ⟨hin, htmp⟩
  · intro hfound
    by_contra hne
    obtain ⟨f, hf, hnone⟩ := hlt.mp (by omega)
    obtain ⟨hin, htmp⟩ := hfound f (List.mem_range.mp hf)
    rw [if_pos hin] at hnone
    exact htmp hnone

/-- Among buffers of one size only their number can be wrong. -/
theorem inRange_iff {bufferVec : List Bytes} {len : ℕ} (hlen : ∀ b ∈ bufferVec, b.length = len)
    (hpos : 0 < len) (hfile : 0 < fileNum) :
    InRange bufferVec fileNum ↔ fileNum ≤ bufferVec.length := by
  constructor
  · intro h
    have hfirst := h.first
    have hlength : 0 < bufferVec[0].length := by rwa [hlen _ (List.getElem_mem hfirst)]
    obtain ⟨hlast, -⟩ := h.entry 0 hlength (fileNum - 1) (by omega)
    omega
  · intro h
    refine ⟨by omega, fun i hi j hj ↦ ⟨by omega, ?_⟩⟩
    rw [hlen _ (List.getElem_mem _)] at hi ⊢
    exact hi

theorem readTmp_size {len : ℕ} (hlen : ∀ f b, d.tmp f threadIdx = some b → b.length = len) :
    ∀ b ∈ readTmp opens threadIdx fileNum d, b.length = len := by
  intro b hb
  obtain ⟨f, -, hf⟩ := List.mem_filterMap.mp hb
  split_ifs at hf
  exact hlen f b hf

theorem readTmp_inRange_iff {len : ℕ}
    (hlen : ∀ f b, d.tmp f threadIdx = some b → b.length = len) (hpos : 0 < len)
    (hfile : 0 < fileNum) :
    InRange (readTmp opens threadIdx fileNum d) fileNum ↔
      ∀ f < fileNum, opens.binIn f threadIdx ∧ d.tmp f threadIdx ≠ none := by
  rw [inRange_iff (readTmp_size hlen) hpos hfile, ← readTmp_length_iff]
  exact ⟨fun h ↦ readTmp_length_le.antisymm h, fun h ↦ h.ge⟩

end ShannonNet.Generator
