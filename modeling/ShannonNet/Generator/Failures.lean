import ShannonNet.Generator.BufferBounds
import ShannonNet.Generator.Order
import ShannonNet.Generator.Script
import ShannonNet.Library.Runs

namespace ShannonNet.Generator

open Library.Bitset Library.Buffer Library.Loop Library.Runs

section Stages

variable (cfg : Config)

/-- With a `tmp` key missing `processBinSecret` reads past the end of `bufferVec`. -/
theorem processBinSecret_none {opens : Opens} {t fileNum len f : ℕ} {d : RunDir}
    (hf : f < fileNum) (hmiss : ¬(opens.binIn f t ∧ d.tmp f t ≠ none))
    (hlen : ∀ f b, d.tmp f t = some b → b.length = len) (hpos : 0 < len) :
    processBinSecret opens t fileNum d = none := by
  rw [← Option.not_isSome_iff_eq_none, processBinSecret_isSome_iff,
    readTmp_inRange_iff hlen hpos (by omega)]
  exact fun hfound ↦ hmiss (hfound f hf)

theorem partSize_pos : 0 < partSize cfg := by
  have hmul := partSize_mul cfg
  have hsize : 0 < cfg.secretFileSize :=
    Nat.mul_pos (Nat.mul_pos cfg.sLen_pos (by norm_num)) (Nat.mul_pos cfg.sLen_pos (by norm_num))
  rcases Nat.eq_zero_or_pos (partSize cfg) with h | h
  · rw [h, Nat.mul_zero] at hmul
    omega
  · exact h

/-- The files earlier iterations left have the size of a part. -/
def RunDir.Sized (d : RunDir) : Prop :=
  (∀ f t b, d.tmp f t = some b → b.length = partSize cfg) ∧
    ∀ t b, d.part t = some b → b.length = partSize cfg

theorem RunDir.empty_sized : RunDir.empty.Sized cfg := by
  refine ⟨?_, ?_⟩
  · intro f t b h
    cases h
  · intro t b h
    cases h

section Invariant

variable {cfg} {d : RunDir} (hd : d.Sized cfg) {v : Option Bytes}
  (hv : ∀ b, v = some b → b.length = partSize cfg)

include hd hv

theorem RunDir.Sized.setTmp (f t : ℕ) : (d.setTmp f t v).Sized cfg := by
  refine ⟨?_, hd.2⟩
  intro f' t' b hb
  simp only [RunDir.setTmp] at hb
  split_ifs at hb
  · exact hv b hb
  · exact hd.1 f' t' b hb

theorem RunDir.Sized.setPart (t : ℕ) : (d.setPart t v).Sized cfg := by
  refine ⟨hd.1, ?_⟩
  intro t' b hb
  simp only [RunDir.setPart] at hb
  split_ifs at hb
  · exact hv b hb
  · exact hd.2 t' b hb

end Invariant

theorem foldl_setTmp_sized (opened : ℕ → Bool) (t : ℕ) (l : List ℕ) {d : RunDir}
    (hd : d.Sized cfg) :
    (l.foldl (fun d i ↦ if opened i then d.setTmp i t none else d) d).Sized cfg := by
  induction l generalizing d with
  | nil => exact hd
  | cons i l ih =>
    rw [List.foldl_cons]
    apply ih
    split_ifs
    · exact hd.setTmp (by simp) i t
    · exact hd

theorem processBinSecret_sized {opens : Opens} {t fileNum : ℕ} {d d' : RunDir} (hd : d.Sized cfg)
    (h : processBinSecret opens t fileNum d = some d') : d'.Sized cfg := by
  obtain ⟨first, hfirst, h⟩ := Option.bind_eq_some_iff.mp h
  obtain ⟨ss, hss, rfl⟩ := Option.map_eq_some_iff.mp h
  have hdeleted := foldl_setTmp_sized cfg
    (fun i ↦ (if opens.binIn i t then d.tmp i t else none).isSome) t (List.range fileNum) hd
  split_ifs
  · apply hdeleted.setPart
    rintro b ⟨rfl⟩
    rw [mapM_length hss, List.length_range]
    exact readTmp_size (fun f b ↦ hd.1 f t b) first (List.mem_of_getElem? hfirst)
  · exact hdeleted

theorem mergePart_sized {opens : Opens} {i : ℕ} {s s' : Bytes × RunDir} (hd : s.2.Sized cfg)
    (h : mergePart cfg opens s i = some s') : s'.2.Sized cfg := by
  unfold mergePart at h
  split at h
  · cases h
    exact hd
  · split_ifs at h
    cases h
    exact hd.setPart (by simp) i

section Sized

variable {cfg} {opens : Opens} {secrets : List Bytes} {randomVec : List (List ℕ)} {d : RunDir}
  (hrow : ∀ f < secrets.length, ∀ t < cfg.threadNum,
    (randomVec.getD (f * cfg.threadNum + t) []).length = randomNum cfg)

include hrow

theorem tmpStage_sized (opens : Opens) {tasks : List (ℕ × ℕ)}
    (htasks : ∀ p, p ∈ tasks ↔ p.1 < secrets.length ∧ p.2 < cfg.threadNum) (hd : d.Sized cfg) :
    let d' := tasks.foldl
      (fun d p ↦ processTmpSecret cfg opens ((secrets.map some).getD p.1 none) p.1 p.2
        (randomVec.getD (p.1 * cfg.threadNum + p.2) []) d) d
    d'.Sized cfg ∧ ∀ f < secrets.length, ∀ t, (d'.tmp f t ≠ none ↔
      t < cfg.threadNum ∧ opens.secretIn f t ∧ opens.tmpOut f t ∨ d.tmp f t ≠ none) := by
  obtain ⟨hpart, htmp⟩ :=
    tmpStage cfg opens secrets randomVec tasks (fun p hp ↦ ((htasks p).mp hp).1) d
  intro d'
  refine ⟨⟨?_, ?_⟩, ?_⟩
  · intro f t b hb
    rw [htmp] at hb
    split_ifs at hb with hopen
    · cases hb
      obtain ⟨hf, ht⟩ := (htasks (f, t)).mp hopen.1
      rw [tmpSecret_length, hrow f hf t ht, randomNum_mul]
    · exact hd.1 f t b hb
  · intro t b hb
    rw [hpart] at hb
    exact hd.2 t b hb
  · intro f hf t
    rw [htmp]
    by_cases hopen : t < cfg.threadNum ∧ opens.secretIn f t ∧ opens.tmpOut f t
    · rw [if_pos ⟨(htasks (f, t)).mpr ⟨hf, hopen.1⟩, hopen.2⟩]
      simp [hopen]
    · rw [if_neg fun h ↦ hopen ⟨((htasks (f, t)).mp h.1).2, h.2⟩]
      simp only [hopen, false_or]

/-- An iteration keeps the sizes for the next one. -/
theorem generateKey_sized {d' : RunDir} {published : Bool} (hd : d.Sized cfg)
    (h : generateKey cfg opens (secrets.map some) randomVec d = some (d', published)) :
    d'.Sized cfg := by
  have htmp := (tmpStage_sized hrow opens (fun p ↦ mem_tasks cfg) hd).1
  simp only [generateKey, List.length_map] at h
  generalize List.foldl _ d _ = d₀ at htmp h
  obtain ⟨d₁, hd₁, h⟩ := Option.bind_eq_some_iff.mp h
  obtain ⟨s, hs, h⟩ := Option.map_eq_some_iff.mp h
  have hbin : d₁.Sized cfg := foldlM_range_of_some (fun _ e ↦ e.Sized cfg) htmp
    (fun _ _ _ _ he hstep ↦ processBinSecret_sized cfg he hstep) hd₁
  have hmerge : s.2.Sized cfg := foldlM_range_of_some (fun _ s ↦ s.2.Sized cfg) hbin
    (fun _ _ _ _ he hstep ↦ mergePart_sized cfg he hstep) hs
  split_ifs at h
  · cases h
    exact hmerge
  · cases h
    exact hmerge

/-- What an iteration over `secrets` leaves in the directory of its index. -/
def leave (cfg : Config) (d : RunDir) :
    Opens × List Bytes × Rand × ℕ → Option RunDir
  | (opens, secrets, rand, pos) =>
    (generateKey cfg opens (secrets.map some) (generateRandom cfg rand pos secrets.length) d).map
      Prod.fst

omit hrow in
theorem reachable_sized (h : Reachable (leave cfg) (fun _ _ ↦ True) RunDir.empty d) :
    d.Sized cfg := by
  apply h.invariant (RunDir.empty_sized cfg)
  rintro e ⟨opens, secrets, rand, pos⟩ e' he - hstep
  obtain ⟨r, hr, rfl⟩ := Option.map_eq_some_iff.mp hstep
  exact generateKey_sized (fun _ hf _ ht ↦ generateRandom_row cfg rand pos hf ht) he hr

theorem generateKey_none (hd : d.Sized cfg) {f t : ℕ} (hf : f < secrets.length)
    (ht : t < cfg.threadNum) (hmiss : ¬TmpFound opens d f t) :
    generateKey cfg opens (secrets.map some) randomVec d = none := by
  obtain ⟨hsized, hwritten⟩ := tmpStage_sized hrow opens (fun p ↦ mem_tasks cfg) hd
  simp only [generateKey, List.length_map]
  generalize List.foldl _ d _ = d' at hsized hwritten ⊢
  rw [foldlM_range_none (fun n e ↦ ∀ t, n ≤ t → ∀ f, e.tmp f t = d'.tmp f t)
    (fun _ _ f ↦ rfl) ?_ ht]
  · rfl
  · intro e he
    refine processBinSecret_none hf ?_ ?_ (partSize_pos cfg)
    · rw [he t le_rfl, hwritten f hf t]
      exact fun h ↦ hmiss ⟨h.1, h.2.imp_left And.right⟩
    · intro f' b hb
      rw [he t le_rfl] at hb
      exact hsized.1 f' t b hb
  · intro n e e' _ he hstep t' ht' f'
    rw [((processBinSecret_some hstep).2 t' (by omega)).2 f']
    exact he t' (by omega) f'

theorem foundKeys_length (hd : d.Sized cfg)
    (hfound : ∀ f < secrets.length, ∀ t < cfg.threadNum, TmpFound opens d f t) :
    ∀ t < cfg.threadNum, ∀ b ∈ foundKeys cfg opens secrets randomVec d t,
      b.length = partSize cfg := by
  intro t ht b hb
  obtain ⟨f, hf, rfl⟩ := List.mem_map.mp hb
  have hf' := List.mem_range.mp hf
  split_ifs with hopen
  · rw [tmpSecret_length, hrow f hf' t ht, randomNum_mul]
  · obtain ⟨stale, hstale⟩ :=
      Option.ne_none_iff_exists'.mp ((hfound f hf' t ht).2.resolve_left hopen)
    rw [hstale, Option.getD_some]
    exact hd.1 f t stale hstale

omit hrow in
theorem foundPart_length (hd : d.Sized cfg) (t : ℕ) :
    ∀ b, foundPart cfg opens secrets randomVec d t = some b → b.length = partSize cfg := by
  intro b hb
  unfold foundPart at hb
  split_ifs at hb
  · cases hb
    rw [List.length_map, List.length_range]
  · exact hd.2 t b hb

theorem generateKey_found (opens : Opens) (hfile : 0 < secrets.length) (hd : d.Sized cfg)
    (hfound : ∀ f < secrets.length, ∀ t < cfg.threadNum, TmpFound opens d f t) :
    ∃ d', generateKey cfg opens (secrets.map some) randomVec d = some (d', opens.saveOut) ∧
      (opens.saveOut → d'.bin = some (mergedKey cfg opens secrets randomVec d)) :=
  generateKey_eq cfg opens hfile hfound (foundKeys_length hrow hd hfound)
    fun t _ ↦ foundPart_length hd t

/-- In a directory of any files of the right size the stages access nothing out of range if and
only if every `tmp` key is found. -/
theorem generateKey_isSome_iff (hfile : 0 < secrets.length) (hd : d.Sized cfg) :
    (generateKey cfg opens (secrets.map some) randomVec d).isSome ↔
      ∀ f < secrets.length, ∀ t < cfg.threadNum, TmpFound opens d f t := by
  constructor
  · intro h f hf t ht
    by_contra hmiss
    rw [generateKey_none hrow hd hf ht hmiss] at h
    cases h
  · intro h
    obtain ⟨d', hd', -⟩ := generateKey_found hrow opens hfile hd h
    rw [hd']
    rfl

end Sized

/-- The calls of `processTmpSecret` in an iteration, in the order the pool gets to them. -/
def processTmpSecrets (opens : Opens) (secrets : List Bytes) (randomVec : List (List ℕ))
    (tasks : List (ℕ × ℕ)) (d : RunDir) : RunDir :=
  tasks.foldl
    (fun d p ↦ processTmpSecret cfg opens ((secrets.map some).getD p.1 none) p.1 p.2
      (randomVec.getD (p.1 * cfg.threadNum + p.2) []) d) d

theorem processTmpSecrets_sized (opens : Opens) (secrets : List Bytes) (rand : Rand) (pos : ℕ)
    {tasks : List (ℕ × ℕ)}
    (htasks : tasks.Perm (List.range secrets.length ×ˢ List.range cfg.threadNum)) {d : RunDir}
    (hd : d.Sized cfg) :
    let d' := processTmpSecrets cfg opens secrets (generateRandom cfg rand pos secrets.length)
      tasks d
    d'.Sized cfg ∧ ∀ f < secrets.length, ∀ t, (d'.tmp f t ≠ none ↔
      t < cfg.threadNum ∧ opens.secretIn f t ∧ opens.tmpOut f t ∨ d.tmp f t ≠ none) :=
  tmpStage_sized (fun _ hf _ ht ↦ generateRandom_row cfg rand pos hf ht) opens
    (fun _ ↦ htasks.mem_iff.trans (mem_tasks cfg)) hd

/-- After the calls of `processTmpSecret`, whichever of them returned early, `processBinSecret`
stays inside its buffers if and only if it can read a `tmp` key of every file. -/
theorem buffers_inRange_iff (cfg : Config) (opens : Opens) {secrets : List Bytes}
    (hfile : 0 < secrets.length) (rand : Rand) (pos : ℕ) {tasks : List (ℕ × ℕ)}
    (htasks : tasks.Perm (List.range secrets.length ×ˢ List.range cfg.threadNum)) {d : RunDir}
    (hd : d.Sized cfg) (threadIdx : ℕ) :
    let fileNum := secrets.length
    let d' := processTmpSecrets cfg opens secrets (generateRandom cfg rand pos fileNum) tasks d
    ((processBinSecret opens threadIdx fileNum d').isSome ↔
      InRange (readTmp opens threadIdx fileNum d') fileNum) ∧
    (InRange (readTmp opens threadIdx fileNum d') fileNum ↔
      ∀ f < fileNum, opens.binIn f threadIdx ∧
        (threadIdx < cfg.threadNum ∧ opens.secretIn f threadIdx ∧ opens.tmpOut f threadIdx ∨
          d.tmp f threadIdx ≠ none)) := by
  intro fileNum d'
  obtain ⟨hsized, hwritten⟩ := processTmpSecrets_sized cfg opens secrets rand pos htasks hd
  refine ⟨processBinSecret_isSome_iff, ?_⟩
  rw [readTmp_inRange_iff (fun f ↦ hsized.1 f threadIdx) (partSize_pos cfg) hfile]
  exact forall₂_congr fun f hf ↦ and_congr_right fun _ ↦ hwritten f hf threadIdx

theorem buffers_inRange_iff_release :
    let secrets := [zeros Config.release.secretASize]
    let d' := processTmpSecrets Config.release Opens.all secrets
      (generateRandom Config.release id 0 1) (List.range 1 ×ˢ List.range Config.release.threadNum)
      RunDir.empty
    ((processBinSecret Opens.all 0 1 d').isSome ↔ InRange (readTmp Opens.all 0 1 d') 1) ∧
    (InRange (readTmp Opens.all 0 1 d') 1 ↔
      ∀ f < 1, Opens.all.binIn f 0 ∧
        (0 < Config.release.threadNum ∧ Opens.all.secretIn f 0 ∧ Opens.all.tmpOut f 0 ∨
          RunDir.empty.tmp f 0 ≠ none)) :=
  buffers_inRange_iff Config.release Opens.all
    (show 0 < [zeros Config.release.secretASize].length from Nat.one_pos) id 0 (.refl _)
    (RunDir.empty_sized Config.release) 0

/-- Of two files the second does not open, and `bufferVec[1]` is read from a vector of one. -/
theorem second_buffer_missing :
    ¬∀ (opens : Opens) (secrets : List Bytes), 0 < secrets.length → ∀ threadIdx,
      InRange (readTmp opens threadIdx secrets.length
        (processTmpSecrets Config.release opens secrets
          (generateRandom Config.release id 0 secrets.length)
          (List.range secrets.length ×ˢ List.range Config.release.threadNum) RunDir.empty))
        secrets.length := by
  intro h
  let opens := { Opens.all with secretIn := fun f _ ↦ f ≠ 1 }
  let secrets := [zeros Config.release.secretASize, zeros Config.release.secretASize]
  obtain ⟨hsized, hwritten⟩ := processTmpSecrets_sized Config.release opens secrets id 0 (.refl _)
    (RunDir.empty_sized Config.release)
  have hsecond : 1 < secrets.length := Nat.one_lt_two
  have hfound := (readTmp_inRange_iff (fun f ↦ hsized.1 f 0) (partSize_pos Config.release)
    (Nat.zero_lt_of_lt hsecond)).mp (h opens secrets Nat.two_pos 0) 1 hsecond
  rcases (hwritten 1 hsecond 0).mp hfound.2 with ⟨-, hopen, -⟩ | hstale
  · exact absurd hopen (by decide)
  · exact hstale rfl

/-- Selected files of which all but one hold zeros. -/
def onlyFile (fileNum f : ℕ) (file : Bytes) : List Bytes :=
  (List.range fileNum).map fun i ↦ if i = f then file else zeros cfg.secretASize

theorem onlyFile_length (fileNum f : ℕ) (file : Bytes) :
    (onlyFile cfg fileNum f file).length = fileNum := by
  rw [onlyFile, List.length_map, List.length_range]

theorem onlyFile_getD {fileNum i : ℕ} (f : ℕ) (file : Bytes) (hi : i < fileNum) :
    (onlyFile cfg fileNum f file).getD i [] = if i = f then file else zeros cfg.secretASize := by
  rw [onlyFile, List.getD_eq_getElem _ _ (by simpa using hi), List.getElem_map, List.getElem_range]

theorem onlyFile_size (fileNum f : ℕ) {file : Bytes} (hfile : file.length = cfg.secretASize) :
    ∀ b ∈ onlyFile cfg fileNum f file, b.length = cfg.secretASize := by
  intro b hb
  obtain ⟨i, -, rfl⟩ := List.mem_map.mp hb
  split_ifs
  · exact hfile
  · exact zeros_length _

/-- The first window of every group starts at the first byte of the chunk. -/
theorem runningKey_onlyFile {randomVec : List (List ℕ)} {fileNum f t : ℕ} {file : Bytes}
    (hf : f < fileNum) (hfile : file.length = cfg.secretASize) (ht : t < cfg.threadNum)
    (hrow : ∀ f < fileNum, ∀ t < cfg.threadNum,
      (randomVec.getD (f * cfg.threadNum + t) []).length = randomNum cfg) :
    bitAt (runningKey cfg (onlyFile cfg fileNum f file) randomVec) (8 * (t * partSize cfg)) =
      parity (unpack (readAt file (bufferSize cfg * t) (readChars cfg))) := by
  have hgroup : 0 < randomNum cfg := by
    have hmul := randomNum_mul cfg
    have hpos := partSize_pos cfg
    exact Nat.pos_of_mul_pos_right (hmul ▸ hpos)
  have hstart (random : ℕ) : windowOffset cfg random 0 = 0 := by
    rw [windowOffset, Nat.mul_zero, Nat.zero_mod]
  have hbit := runningKey_bitAt cfg (onlyFile_size cfg fileNum f hfile)
    (by rw [onlyFile_length]; exact hrow) ht hgroup cfg.readNum_pos
  rw [Nat.zero_mul, Nat.add_zero, Nat.add_zero, onlyFile_length] at hbit
  rw [hbit, parity_map_single List.nodup_range (a := f), if_pos (List.mem_range.mpr hf), hstart,
    onlyFile_getD cfg f file hf, if_pos rfl, Nat.add_zero]
  intro i hi hne
  rw [onlyFile_getD cfg f file (List.mem_range.mp hi), if_neg hne, readAt_zeros, parity_zeros]

theorem runningKey_zeros {randomVec : List (List ℕ)} {fileNum f t : ℕ} (hf : f < fileNum)
    (ht : t < cfg.threadNum) (hrow : ∀ f < fileNum, ∀ t < cfg.threadNum,
      (randomVec.getD (f * cfg.threadNum + t) []).length = randomNum cfg) :
    bitAt (runningKey cfg (onlyFile cfg fileNum f (zeros cfg.secretASize)) randomVec)
      (8 * (t * partSize cfg)) = false := by
  rw [runningKey_onlyFile cfg hf (zeros_length _) ht hrow, readAt_zeros, parity_zeros]

theorem runningKey_spike {randomVec : List (List ℕ)} {fileNum f t : ℕ} (hf : f < fileNum)
    (ht : t < cfg.threadNum) (hrow : ∀ f < fileNum, ∀ t < cfg.threadNum,
      (randomVec.getD (f * cfg.threadNum + t) []).length = randomNum cfg) :
    bitAt (runningKey cfg (onlyFile cfg fileNum f (spike cfg.secretASize (bufferSize cfg * t)))
      randomVec) (8 * (t * partSize cfg)) = true := by
  have hchunk := bufferSize_mul_le cfg ht
  have hwindow := window_inside cfg 0 0
  have hchars : 0 < readChars cfg := Nat.div_pos cfg.readLen_ge (by norm_num)
  rw [runningKey_onlyFile cfg hf (spike_length _ _) ht hrow, parity_readAt_spike (by omega)]
  simp [hchars]

theorem mergedKey_bitAt {opens : Opens} {secrets : List Bytes} {randomVec : List (List ℕ)}
    {d : RunDir} {t : ℕ} (hd : d.Sized cfg) (ht : t < cfg.threadNum) :
    bitAt (mergedKey cfg opens secrets randomVec d) (8 * (t * partSize cfg)) =
      bitAt (mergedPart cfg opens (foundPart cfg opens secrets randomVec d) t) 0 := by
  have hbit := flatMap_bitAt (List.range cfg.threadNum)
    (mergedPart cfg opens (foundPart cfg opens secrets randomVec d)) _
    (fun t _ ↦ mergedPart_length cfg (foundPart_length hd t)) t 0 (by simpa using ht)
    (Nat.mul_pos (by norm_num) (partSize_pos cfg))
  rwa [Nat.add_zero, List.getElem_range] at hbit

/-- Where an open fails on the way of a file to its part, the part does not depend on the file. -/
theorem mergedKey_onlyFile {opens : Opens} (randomVec : List (List ℕ)) {d : RunDir}
    (fileNum : ℕ) {f t : ℕ} (hd : d.Sized cfg) (ht : t < cfg.threadNum)
    (hmiss : ¬((opens.secretIn f t ∧ opens.tmpOut f t) ∧ opens.binOut t ∧ opens.mergeIn t))
    (file file' : Bytes) :
    bitAt (mergedKey cfg opens (onlyFile cfg fileNum f file) randomVec d)
        (8 * (t * partSize cfg)) =
      bitAt (mergedKey cfg opens (onlyFile cfg fileNum f file') randomVec d)
        (8 * (t * partSize cfg)) := by
  have hkeys (htmp : ¬(opens.secretIn f t ∧ opens.tmpOut f t)) :
      foundKeys cfg opens (onlyFile cfg fileNum f file) randomVec d t =
        foundKeys cfg opens (onlyFile cfg fileNum f file') randomVec d t := by
    simp only [foundKeys, onlyFile_length]
    apply List.map_congr_left
    intro i hi
    have hi' := List.mem_range.mp hi
    by_cases h : i = f
    · subst h
      rw [if_neg htmp, if_neg htmp]
    · rw [onlyFile_getD cfg f file hi', onlyFile_getD cfg f file' hi', if_neg h, if_neg h]
  have hpart : mergedPart cfg opens (foundPart cfg opens (onlyFile cfg fileNum f file) randomVec d)
      t = mergedPart cfg opens (foundPart cfg opens (onlyFile cfg fileNum f file') randomVec d)
      t := by
    unfold mergedPart foundPart
    by_cases hin : opens.mergeIn t
    · by_cases hout : opens.binOut t
      · rw [hkeys fun htmp ↦ hmiss ⟨htmp, hout, hin⟩]
      · rw [if_neg hout, if_neg hout]
    · rw [if_neg hin, if_neg hin]
  rw [mergedKey_bitAt cfg hd ht, mergedKey_bitAt cfg hd ht, hpart]

/-- So the key is not right whatever the files hold. -/
theorem mergedKey_ne (opens : Opens) {randomVec : List (List ℕ)} {d : RunDir} {fileNum f t : ℕ}
    (hd : d.Sized cfg) (hf : f < fileNum) (ht : t < cfg.threadNum)
    (hrow : ∀ f < fileNum, ∀ t < cfg.threadNum,
      (randomVec.getD (f * cfg.threadNum + t) []).length = randomNum cfg)
    (hmiss : ¬((opens.secretIn f t ∧ opens.tmpOut f t) ∧ opens.binOut t ∧ opens.mergeIn t)) :
    ∃ secrets : List Bytes, secrets.length = fileNum ∧
      (∀ file ∈ secrets, file.length = cfg.secretASize) ∧
      mergedKey cfg opens secrets randomVec d ≠ runningKey cfg secrets randomVec := by
  by_contra hall
  push Not at hall
  have hzeros := hall (onlyFile cfg fileNum f (zeros cfg.secretASize)) (onlyFile_length _ _ _ _)
    (onlyFile_size cfg _ _ (zeros_length _))
  have hspike := hall (onlyFile cfg fileNum f (spike cfg.secretASize (bufferSize cfg * t)))
    (onlyFile_length _ _ _ _) (onlyFile_size cfg _ _ (spike_length _ _))
  have hbit := mergedKey_onlyFile cfg randomVec fileNum hd ht hmiss
    (zeros cfg.secretASize) (spike cfg.secretASize (bufferSize cfg * t))
  rw [hzeros, hspike, runningKey_zeros cfg hf ht hrow, runningKey_spike cfg hf ht hrow] at hbit
  cases hbit

end Stages

section Iteration

/-- A whole iteration over one message: six steps take it to its end. -/
def iteration (source : Source) (o : Outcome) (s : Slot) : Slot :=
  ((fun p : Pc × Slot ↦ p.1.step source o p.2)^[6] (.createTime, s)).2

theorem iteration_none {source : Source} {o : Outcome} {s : Slot} (hs : s.time source = none)
    (ho : o.running = none) : (iteration source o s).time source = none := by
  simp [iteration, Pc.step, hs, ho]

theorem iteration_some {source : Source} {o : Outcome} {s : Slot} {key : Bytes}
    (hs : s.time source = none) (ho : o.running = some key) :
    ((iteration source o s).time source).isSome ∧
      (iteration source o s).running source = some key := by
  cases source with
  | server => simp [iteration, Pc.step, hs, ho]
  | client => simp [iteration, Pc.step, hs, ho]

variable (cfg : Config)

/-- An iteration over a message of `source`, in the directory `d` and with `secrets` selected,
accesses nothing out of range and leaves a visible index only with the full merge as its key. -/
def PublishesComplete (opens : Opens) (secrets : List Bytes) (randomVec : List (List ℕ))
    (d : RunDir) (source : Source) (waiting : Option Bytes) (timeStamp : ℕ) (s : Slot) : Prop :=
  ∃ d' published,
    generateKey cfg opens (secrets.map some) randomVec d = some (d', published) ∧
    let s' := iteration source ⟨if published then d'.bin else none, waiting, timeStamp⟩ s
    (s'.time source).isSome → s'.running source = some (runningKey cfg secrets randomVec)

variable {cfg} {opens : Opens} {secrets : List Bytes} {randomVec : List (List ℕ)} {d : RunDir}
  {source : Source} {waiting : Option Bytes} {timeStamp : ℕ} {s : Slot}

theorem publishesComplete_iff (hs : s.time source = none) (hk : 0 < secrets.length)
    (hd : d.Sized cfg)
    (hrow : ∀ f < secrets.length, ∀ t < cfg.threadNum,
      (randomVec.getD (f * cfg.threadNum + t) []).length = randomNum cfg)
    (hfound : ∀ f < secrets.length, ∀ t < cfg.threadNum, TmpFound opens d f t) :
    PublishesComplete cfg opens secrets randomVec d source waiting timeStamp s ↔
      (opens.saveOut →
        mergedKey cfg opens secrets randomVec d = runningKey cfg secrets randomVec) := by
  obtain ⟨d', hd', hbin⟩ := generateKey_found hrow opens hk hd hfound
  unfold PublishesComplete
  rw [hd']
  by_cases hsave : opens.saveOut
  · obtain ⟨hvisible, hkey⟩ := iteration_some (o := ⟨d'.bin, waiting, timeStamp⟩) hs (hbin hsave)
    constructor
    · rintro ⟨d₁, published, h, hcomplete⟩ -
      cases h
      rw [hsave, if_pos rfl] at hcomplete
      exact Option.some.inj (hkey.symm.trans (hcomplete hvisible))
    · intro h
      refine ⟨d', _, rfl, fun _ ↦ ?_⟩
      rw [hsave, if_pos rfl, hkey, h hsave]
  · constructor
    · intro _ h
      exact absurd h hsave
    · intro _
      refine ⟨d', _, rfl, fun h ↦ ?_⟩
      rw [if_neg hsave, iteration_none hs rfl] at h
      cases h

/-- One part file that does not open leaves a part of the visible key zero. -/
theorem zero_part_visible :
    let opens := { Opens.all with mergeIn := fun t ↦ t ≠ 0 }
    let secrets := onlyFile Config.release 1 0 (spike Config.release.secretASize 0)
    let randomVec := generateRandom Config.release id 0 1
    ∃ d, generateKey Config.release opens (secrets.map some) randomVec RunDir.empty =
        some (d, true) ∧
      let s := iteration .server ⟨d.bin, none, 1⟩ Slot.empty
      (s.time .server).isSome ∧
        s.running .server ≠ some (runningKey Config.release secrets randomVec) := by
  intro opens secrets randomVec
  have hlen : secrets.length = 1 := onlyFile_length _ _ _ _
  have hsized := RunDir.empty_sized Config.release
  have hrow : ∀ f < 1, ∀ t < Config.release.threadNum, _ := fun f hf t ht ↦
    generateRandom_row Config.release id 0 hf ht
  obtain ⟨d, hd, hbin⟩ := generateKey_found (fun f hf ↦ hrow f (hf.trans_eq hlen)) opens
    (hlen ▸ Nat.one_pos) hsized fun _ _ _ _ ↦ ⟨rfl, .inl ⟨rfl, rfl⟩⟩
  obtain ⟨hvisible, hkey⟩ := iteration_some (o := ⟨d.bin, none, 1⟩)
    (show Slot.empty.time .server = none from rfl) (hbin rfl)
  refine ⟨d, hd, hvisible, ?_⟩
  rw [hkey]
  intro heq
  have hbit := runningKey_spike Config.release Nat.one_pos Config.release.threadNum_pos hrow
  rw [Nat.mul_zero (bufferSize _), ← Option.some.inj heq,
    mergedKey_bitAt Config.release hsized Config.release.threadNum_pos, mergedPart,
    if_neg (by simp [opens]), Option.getD_none, bitAt, zeros,
    List.getD_eq_getElem _ _ (by simpa using partSize_pos Config.release), List.getElem_replicate,
    bit_zero] at hbit
  cases hbit

/-- Only complete keys become visible, whatever the secrets hold, if and only if every `tmp` key is
found and, for a key that is saved, was written in this iteration and no part of it is lost between
its stage and the merge. -/
theorem complete_keys_iff (cfg : Config) (opens : Opens) {d : RunDir} (hd : d.Sized cfg)
    {fileNum : ℕ} (hfile : 0 < fileNum) (rand : Rand) (pos : ℕ) (source : Source)
    (waiting : Option Bytes) (timeStamp : ℕ) (s : Slot) (hs : s.time source = none) :
    (∀ secrets : List Bytes, secrets.length = fileNum →
      (∀ file ∈ secrets, file.length = cfg.secretASize) →
      PublishesComplete cfg opens secrets (generateRandom cfg rand pos fileNum) d source waiting
        timeStamp s) ↔
      (∀ f < fileNum, ∀ t < cfg.threadNum, TmpFound opens d f t) ∧
      (opens.saveOut → ∀ t < cfg.threadNum,
        (∀ f < fileNum, opens.secretIn f t ∧ opens.tmpOut f t) ∧
          opens.binOut t ∧ opens.mergeIn t) := by
  have hrow : ∀ f < fileNum, ∀ t < cfg.threadNum, _ := fun f hf t ht ↦
    generateRandom_row cfg rand pos hf ht
  constructor
  · intro h
    have hfound : ∀ f < fileNum, ∀ t < cfg.threadNum, TmpFound opens d f t := by
      have hlen := onlyFile_length cfg fileNum 0 (zeros cfg.secretASize)
      intro f hf t ht
      by_contra hmiss
      obtain ⟨d', published, hd', -⟩ := h _ hlen (onlyFile_size cfg _ _ (zeros_length _))
      rw [generateKey_none (by rwa [hlen]) hd (by rwa [hlen]) ht hmiss] at hd'
      cases hd'
    refine ⟨hfound, ?_⟩
    intro hsave t ht
    have hopen : ∀ f < fileNum,
        (opens.secretIn f t ∧ opens.tmpOut f t) ∧ opens.binOut t ∧ opens.mergeIn t := by
      intro f hf
      by_contra hmiss
      obtain ⟨secrets, rfl, hsize, hne⟩ := mergedKey_ne cfg opens hd hf ht hrow hmiss
      exact hne ((publishesComplete_iff hs hfile hd hrow hfound).mp (h secrets rfl hsize) hsave)
    exact ⟨fun f hf ↦ (hopen f hf).1, (hopen 0 hfile).2⟩
  · rintro ⟨hfound, hparts⟩ secrets rfl -
    exact (publishesComplete_iff hs hfile hd hrow hfound).mpr fun hsave ↦
      mergedKey_eq cfg (hparts hsave)

theorem complete_keys_iff_release :
    (∀ secrets : List Bytes, secrets.length = 1 →
      (∀ file ∈ secrets, file.length = Config.release.secretASize) →
      PublishesComplete Config.release Opens.all secrets (generateRandom Config.release id 0 1)
        RunDir.empty .server none 1 Slot.empty) ↔
      (∀ f < 1, ∀ t < Config.release.threadNum, TmpFound Opens.all RunDir.empty f t) ∧
      (Opens.all.saveOut → ∀ t < Config.release.threadNum,
        (∀ f < 1, Opens.all.secretIn f t ∧ Opens.all.tmpOut f t) ∧
          Opens.all.binOut t ∧ Opens.all.mergeIn t) :=
  complete_keys_iff Config.release Opens.all (RunDir.empty_sized Config.release) Nat.one_pos id 0
    .server none 1 Slot.empty rfl

end Iteration

end ShannonNet.Generator
