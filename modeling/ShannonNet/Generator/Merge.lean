import ShannonNet.Generator.KeySpec
import ShannonNet.Library.Loop

namespace ShannonNet.Generator

open Library.Bitset Library.Buffer Library.Loop

variable (cfg : Config)

def xorAll (bufs : List Bytes) (i : ℕ) : UInt8 :=
  (bufs.map (·.getD i 0)).foldl (fun acc c ↦ acc ^^^ c) 0

theorem xorColumn_eq {bufs : List Bytes} {i : ℕ} (h : ∀ b ∈ bufs, i < b.length) :
    xorColumn bufs bufs.length i = some (xorAll bufs i) := by
  obtain ⟨acc, hfold, hacc⟩ := foldlM_range (f := fun acc j ↦ bufs[j]?.bind fun buf ↦
      buf[i]?.map fun c ↦ acc ^^^ c) (n := bufs.length) (s := (0 : UInt8))
    (fun n acc ↦ acc = xorAll (bufs.take n) i) (by simp [xorAll]) (by
      intro n acc hn hacc
      have hb := h bufs[n] (List.getElem_mem hn)
      refine ⟨acc ^^^ bufs[n][i], ?_, ?_⟩
      · rw [List.getElem?_eq_getElem hn, Option.bind_some, List.getElem?_eq_getElem hb]
        rfl
      · rw [hacc, xorAll, xorAll, List.take_succ_eq_append_getElem hn, List.map_append,
          List.foldl_append, List.map_singleton, List.foldl_cons, List.foldl_nil,
          List.getD_eq_getElem _ _ hb])
  rw [xorColumn, hfold, hacc, List.take_length]

theorem bit_xorAll (bufs : List Bytes) (i j : ℕ) :
    bit (xorAll bufs i) j = parity (bufs.map fun b ↦ bit (b.getD i 0) j) := by
  have h (l : List UInt8) (acc : UInt8) : bit (l.foldl (fun acc c ↦ acc ^^^ c) acc) j =
      (bit acc j ^^ parity (l.map (bit · j))) := by
    induction l generalizing acc with
    | nil => simp [parity_nil]
    | cons c l ih => rw [List.foldl_cons, ih, bit_xor, List.map_cons, parity_cons, Bool.xor_assoc]
  rw [xorAll, h, bit_zero, Bool.false_xor, List.map_map]
  rfl

theorem foldl_setTmp_none (opened : ℕ → Bool) (t n : ℕ) (d : RunDir) :
    let d' := (List.range n).foldl (fun d i ↦ if opened i then d.setTmp i t none else d) d
    d'.part = d.part ∧ d'.bin = d.bin ∧ ∀ t' ≠ t, ∀ f, d'.tmp f t' = d.tmp f t' := by
  induction n with
  | zero => exact ⟨rfl, rfl, fun _ _ _ ↦ rfl⟩
  | succ n ih =>
    obtain ⟨hpart, hbin, htmp⟩ := ih
    simp only [List.range_succ, List.foldl_append, List.foldl_cons, List.foldl_nil]
    split_ifs
    · refine ⟨hpart, hbin, ?_⟩
      intro t' ht' f
      rw [← htmp t' ht' f]
      simp [RunDir.setTmp, ht']
    · exact ⟨hpart, hbin, htmp⟩

/-- What a call for thread `t` leaves: the part of its thread, unless that file does not open. -/
theorem processBinSecret_some {opens : Opens} {t n : ℕ} {d d' : RunDir}
    (h : processBinSecret opens t n d = some d') :
    (∃ ss, d'.part t = if opens.binOut t then some ss else d.part t) ∧
      ∀ t' ≠ t, d'.part t' = d.part t' ∧ ∀ f, d'.tmp f t' = d.tmp f t' := by
  obtain ⟨first, -, h⟩ := Option.bind_eq_some_iff.mp h
  obtain ⟨ss, -, rfl⟩ := Option.map_eq_some_iff.mp h
  obtain ⟨hpart, -, htmp⟩ := foldl_setTmp_none
    (fun i ↦ (if opens.binIn i t then d.tmp i t else none).isSome) t n d
  split_ifs with hout
  · refine ⟨⟨ss, by simp [RunDir.setPart]⟩, ?_⟩
    intro t' ht'
    exact ⟨by simp [RunDir.setPart, ht', hpart], htmp t' ht'⟩
  · refine ⟨⟨ss, by rw [hpart]⟩, ?_⟩
    intro t' ht'
    exact ⟨by rw [hpart], htmp t' ht'⟩

theorem processBinSecret_eq (opens : Opens) {bufs : List Bytes} {len t : ℕ} {d : RunDir}
    (hk : bufs ≠ []) (hin : ∀ f < bufs.length, opens.binIn f t)
    (htmp : ∀ f, (h : f < bufs.length) → d.tmp f t = some bufs[f])
    (hlen : ∀ b ∈ bufs, b.length = len) :
    ∃ d', processBinSecret opens t bufs.length d = some d' ∧ d'.part t =
      if opens.binOut t then some ((List.range len).map (xorAll bufs)) else d.part t := by
  have hvec : (List.range bufs.length).filterMap
      (fun i ↦ if opens.binIn i t then d.tmp i t else none) = bufs := by
    rw [List.filterMap_congr (g := (bufs[·]?)), filterMap_range]
    intro f hf
    have hf' := List.mem_range.mp hf
    rw [if_pos (hin f hf'), htmp f hf', List.getElem?_eq_getElem hf']
  have hpos : 0 < bufs.length := List.length_pos_iff.mpr hk
  have hpart := (foldl_setTmp_none
    (fun i ↦ (if opens.binIn i t then d.tmp i t else none).isSome) t bufs.length d).1
  simp only [processBinSecret, hvec, List.getElem?_eq_getElem hpos, Option.bind_some,
    hlen _ (List.getElem_mem hpos)]
  rw [mapM_some (g := xorAll bufs) fun i hi ↦ xorColumn_eq fun b hb ↦ by
    rw [hlen b hb]; exact List.mem_range.mp hi]
  refine ⟨_, rfl, ?_⟩
  split_ifs with hout
  · simp [RunDir.setPart]
  · rw [hpart]

theorem processTmpSecret_eq (opens : Opens) (file : Bytes) (f' t' : ℕ) (vec : List ℕ)
    (d : RunDir) :
    processTmpSecret cfg opens (some file) f' t' vec d =
      if opens.secretIn f' t' ∧ opens.tmpOut f' t' then
        d.setTmp f' t' (some (tmpSecret cfg file t' vec))
      else d := by
  rw [processTmpSecret]
  by_cases hin : opens.secretIn f' t'
  · simp [hin]
  · simp [hin]

theorem tmpStage (opens : Opens) (secrets : List Bytes) (randomVec : List (List ℕ))
    (l : List (ℕ × ℕ)) (hl : ∀ p ∈ l, p.1 < secrets.length) (d : RunDir) :
    let d' := l.foldl (fun d p ↦ processTmpSecret cfg opens ((secrets.map some).getD p.1 none)
      p.1 p.2 (randomVec.getD (p.1 * cfg.threadNum + p.2) []) d) d
    d'.part = d.part ∧ ∀ f t, d'.tmp f t =
      if (f, t) ∈ l ∧ opens.secretIn f t ∧ opens.tmpOut f t then
        some (tmpSecret cfg (secrets.getD f []) t (randomVec.getD (f * cfg.threadNum + t) []))
      else d.tmp f t := by
  induction l generalizing d with
  | nil => exact ⟨rfl, fun _ _ ↦ by simp⟩
  | cons p l ih =>
    have hp : (secrets.map some).getD p.1 none = some (secrets.getD p.1 []) := by
      have hlt := hl p (by simp)
      rw [List.getD_eq_getElem _ _ (by simpa using hlt), List.getElem_map,
        List.getD_eq_getElem _ _ hlt]
    obtain ⟨hpart, htmp⟩ := ih (fun q hq ↦ hl q (by simp [hq]))
      (processTmpSecret cfg opens ((secrets.map some).getD p.1 none) p.1 p.2
        (randomVec.getD (p.1 * cfg.threadNum + p.2) []) d)
    rw [hp, processTmpSecret_eq] at hpart htmp
    simp only [List.foldl_cons, hp, processTmpSecret_eq]
    refine ⟨hpart.trans (by split_ifs <;> rfl), ?_⟩
    intro f t
    rw [htmp f t]
    by_cases hft : (f, t) = p
    · subst hft
      by_cases hopen : opens.secretIn f t ∧ opens.tmpOut f t
      · simp [hopen, RunDir.setTmp]
      · simp only [hopen, and_false, if_false]
    · have hne : ¬(f = p.1 ∧ t = p.2) := fun h ↦ hft (Prod.ext h.1 h.2)
      have hstep : (if opens.secretIn p.1 p.2 ∧ opens.tmpOut p.1 p.2 then
          d.setTmp p.1 p.2 (some (tmpSecret cfg (secrets.getD p.1 []) p.2
            (randomVec.getD (p.1 * cfg.threadNum + p.2) [])))
          else d).tmp f t = d.tmp f t := by
        split_ifs
        · exact if_neg hne
        · rfl
      rw [hstep]
      simp only [List.mem_cons, hft, false_or]

theorem mem_tasks {fileNum : ℕ} {p : ℕ × ℕ} :
    p ∈ List.range fileNum ×ˢ List.range cfg.threadNum ↔ p.1 < fileNum ∧ p.2 < cfg.threadNum := by
  rw [List.mem_product, List.mem_range, List.mem_range]

theorem partSize_mul : cfg.threadNum * partSize cfg = cfg.secretFileSize :=
  Nat.mul_div_cancel' ((Dvd.intro_left _ rfl).trans cfg.group_dvd)

theorem randomNum_mul : randomNum cfg * (cfg.readNum / 8) = partSize cfg := by
  rw [randomNum, partSize, Nat.div_div_eq_div_mul]
  apply Nat.eq_div_of_mul_eq_left
  · have := cfg.threadNum_pos
    omega
  · rw [Nat.mul_assoc]
    exact Nat.div_mul_cancel cfg.group_dvd

def tmpKeys (secrets : List Bytes) (randomVec : List (List ℕ)) (t : ℕ) : List Bytes :=
  (List.range secrets.length).map fun f ↦
    tmpSecret cfg (secrets.getD f []) t (randomVec.getD (f * cfg.threadNum + t) [])

def part (secrets : List Bytes) (randomVec : List (List ℕ)) (t : ℕ) : Bytes :=
  (List.range (partSize cfg)).map (xorAll (tmpKeys cfg secrets randomVec t))

theorem part_length (secrets : List Bytes) (randomVec : List (List ℕ)) (t : ℕ) :
    (part cfg secrets randomVec t).length = partSize cfg := by
  simp [part]

def runningKey (secrets : List Bytes) (randomVec : List (List ℕ)) : Bytes :=
  (List.range cfg.threadNum).flatMap (part cfg secrets randomVec)

theorem runningKey_length (secrets : List Bytes) (randomVec : List (List ℕ)) :
    (runningKey cfg secrets randomVec).length = cfg.secretFileSize := by
  rw [runningKey, flatMap_length _ _ _ (fun t _ ↦ part_length cfg secrets randomVec t),
    List.length_range, partSize_mul]

theorem tmpKeys_length {secrets : List Bytes} {randomVec : List (List ℕ)} {t : ℕ}
    (hrow : ∀ f < secrets.length,
      (randomVec.getD (f * cfg.threadNum + t) []).length = randomNum cfg) :
    ∀ b ∈ tmpKeys cfg secrets randomVec t, b.length = partSize cfg := by
  intro b hb
  obtain ⟨f, hf, rfl⟩ := List.mem_map.mp hb
  rw [tmpSecret_length, hrow f (List.mem_range.mp hf), randomNum_mul]

/-- Thread `t` touches the files of thread `t` only, so the `tmp` keys of later threads stay. -/
theorem binStage {opens : Opens} {fileNum : ℕ} {d : RunDir} {keys : ℕ → List Bytes}
    (hk : 0 < fileNum) (hnum : ∀ t, (keys t).length = fileNum)
    (hin : ∀ f < fileNum, ∀ t < cfg.threadNum, opens.binIn f t)
    (htmp : ∀ t < cfg.threadNum, ∀ f, (h : f < (keys t).length) → d.tmp f t = some (keys t)[f])
    (hlen : ∀ t < cfg.threadNum, ∀ b ∈ keys t, b.length = partSize cfg) :
    ∃ d', (List.range cfg.threadNum).foldlM (fun d t ↦ processBinSecret opens t fileNum d) d =
      some d' ∧ ∀ t < cfg.threadNum, d'.part t =
        if opens.binOut t then some ((List.range (partSize cfg)).map (xorAll (keys t)))
        else d.part t := by
  obtain ⟨d', hd', hparts, -⟩ := foldlM_range
    (f := fun d t ↦ processBinSecret opens t fileNum d)
    (fun n e ↦ (∀ t < n, e.part t =
        if opens.binOut t then some ((List.range (partSize cfg)).map (xorAll (keys t)))
        else d.part t) ∧
      ∀ t, n ≤ t → e.part t = d.part t ∧ ∀ f, e.tmp f t = d.tmp f t) (n := cfg.threadNum) (s := d)
    ⟨fun t ht ↦ absurd ht (Nat.not_lt_zero t), fun _ _ ↦ ⟨rfl, fun _ ↦ rfl⟩⟩ (by
      rintro t e ht ⟨hdone, hrest⟩
      obtain ⟨e', he', hpart⟩ := processBinSecret_eq opens (d := e) (t := t)
        (List.length_pos_iff.mp (hnum t ▸ hk)) (fun f hf ↦ hin f (hnum t ▸ hf) t ht)
        (fun f hf ↦ ((hrest t le_rfl).2 f).trans (htmp t ht f hf)) (hlen t ht)
      rw [hnum] at he'
      obtain ⟨-, hother⟩ := processBinSecret_some he'
      refine ⟨e', he', ?_, ?_⟩
      · intro t' ht'
        by_cases h : t' = t
        · subst h
          rw [hpart, (hrest t' le_rfl).1]
        · rw [(hother t' h).1]
          exact hdone t' (by omega)
      · intro t' ht'
        obtain ⟨hpart', htmp'⟩ := hother t' (by omega)
        obtain ⟨hpart, htmp⟩ := hrest t' (by omega)
        exact ⟨hpart'.trans hpart, fun f ↦ (htmp' f).trans (htmp f)⟩)
  exact ⟨d', hd', hparts⟩

/-- What the merge makes of a part: zeros where its file does not open. -/
def mergedPart (opens : Opens) (parts : ℕ → Option Bytes) (t : ℕ) : Bytes :=
  (if opens.mergeIn t then parts t else none).getD (zeros (partSize cfg))

theorem mergedPart_length {opens : Opens} {parts : ℕ → Option Bytes} {t : ℕ}
    (hpart : ∀ b, parts t = some b → b.length = partSize cfg) :
    (mergedPart cfg opens parts t).length = partSize cfg := by
  unfold mergedPart
  split_ifs
  · cases h : parts t with
    | none => exact zeros_length _
    | some b => exact hpart b h
  · exact zeros_length _

theorem mergePart_eq (opens : Opens) {parts : ℕ → Option Bytes} {filled : Bytes} {t rest : ℕ}
    {d : RunDir} (hfilled : filled.length = t * partSize cfg) (hd : d.part t = parts t)
    (hpart : ∀ b, parts t = some b → b.length = partSize cfg) :
    ∃ d', mergePart cfg opens (filled ++ zeros (partSize cfg + rest), d) t =
      some (filled ++ mergedPart cfg opens parts t ++ zeros rest, d') ∧
      ∀ t' ≠ t, d'.part t' = d.part t' := by
  unfold mergePart mergedPart
  rw [hd]
  cases h : if opens.mergeIn t then parts t else none with
  | none =>
    refine ⟨d, ?_, fun _ _ ↦ rfl⟩
    rw [Option.getD_none, List.append_assoc, zeros, zeros, zeros, List.replicate_add]
  | some file =>
    have hlen : file.length = partSize cfg := by
      split_ifs at h
      exact hpart file h
    have hover := overlay_append_zeros filled file (partSize cfg + rest)
    rw [hfilled, hlen, Nat.add_sub_cancel_left] at hover
    simp only [List.length_append, zeros_length, hfilled, hlen]
    rw [if_pos (by omega), hover, Option.getD_some]
    refine ⟨_, rfl, ?_⟩
    intro t' ht'
    exact if_neg ht'

theorem mergeStage (opens : Opens) {parts : ℕ → Option Bytes} {d : RunDir}
    (hd : ∀ t < cfg.threadNum, d.part t = parts t)
    (hpart : ∀ t < cfg.threadNum, ∀ b, parts t = some b → b.length = partSize cfg) :
    ∃ s, (List.range cfg.threadNum).foldlM (mergePart cfg opens) (zeros cfg.secretFileSize, d) =
      some s ∧ s.1 = (List.range cfg.threadNum).flatMap (mergedPart cfg opens parts) := by
  obtain ⟨s, hs, hbuf, -⟩ := foldlM_range (f := mergePart cfg opens)
    (fun n s ↦ s.1 = (List.range n).flatMap (mergedPart cfg opens parts) ++
        zeros ((cfg.threadNum - n) * partSize cfg) ∧
      ∀ t, n ≤ t → s.2.part t = d.part t) (n := cfg.threadNum) (s := (zeros cfg.secretFileSize, d))
    ⟨by simp [partSize_mul], fun _ _ ↦ rfl⟩ (by
      rintro t ⟨buf, e⟩ ht ⟨rfl, hrest⟩
      have hfilled : ((List.range t).flatMap (mergedPart cfg opens parts)).length =
          t * partSize cfg := by
        rw [flatMap_length _ _ _ fun i hi ↦ mergedPart_length cfg
          (hpart i ((List.mem_range.mp hi).trans ht)), List.length_range]
      have hsplit : (cfg.threadNum - t) * partSize cfg =
          partSize cfg + (cfg.threadNum - (t + 1)) * partSize cfg := by
        rw [show cfg.threadNum - t = cfg.threadNum - (t + 1) + 1 by omega, Nat.succ_mul,
          Nat.add_comm]
      obtain ⟨e', he', hother⟩ := mergePart_eq cfg opens (d := e) hfilled
        ((hrest t le_rfl).trans (hd t ht)) (hpart t ht)
      rw [hsplit, he']
      refine ⟨_, rfl, ?_, ?_⟩
      · rw [List.range_succ, List.flatMap_append, List.flatMap_singleton]
      · intro t' ht'
        exact (hother t' (by omega)).trans (hrest t' (by omega)))
  refine ⟨s, hs, ?_⟩
  simp [hbuf, zeros]

/-- `processBinSecret` finds the `tmp` key of the file and the thread: it opens, and it was written
now or earlier. -/
def TmpFound (opens : Opens) (d : RunDir) (f t : ℕ) : Prop :=
  opens.binIn f t ∧ (opens.secretIn f t ∧ opens.tmpOut f t ∨ d.tmp f t ≠ none)

section Found

variable (opens : Opens) (secrets : List Bytes) (randomVec : List (List ℕ)) (d : RunDir)

/-- The `tmp` keys of a thread that are merged: those an open did not let through are as an
earlier iteration left them. -/
def foundKeys (t : ℕ) : List Bytes :=
  (List.range secrets.length).map fun f ↦
    if opens.secretIn f t ∧ opens.tmpOut f t then
      tmpSecret cfg (secrets.getD f []) t (randomVec.getD (f * cfg.threadNum + t) [])
    else (d.tmp f t).getD []

def foundPart (t : ℕ) : Option Bytes :=
  if opens.binOut t then
    some ((List.range (partSize cfg)).map (xorAll (foundKeys cfg opens secrets randomVec d t)))
  else d.part t

/-- The key the stages make of `secrets` in the directory `d`. -/
def mergedKey : Bytes :=
  (List.range cfg.threadNum).flatMap
    (mergedPart cfg opens (foundPart cfg opens secrets randomVec d))

variable {secrets randomVec d}

/-- The stages when every `tmp` key is found. -/
theorem generateKey_eq (hk : 0 < secrets.length)
    (hfound : ∀ f < secrets.length, ∀ t < cfg.threadNum, TmpFound opens d f t)
    (hkey : ∀ t < cfg.threadNum, ∀ b ∈ foundKeys cfg opens secrets randomVec d t,
      b.length = partSize cfg)
    (hpart : ∀ t < cfg.threadNum, ∀ b, foundPart cfg opens secrets randomVec d t = some b →
      b.length = partSize cfg) :
    ∃ d', generateKey cfg opens (secrets.map some) randomVec d = some (d', opens.saveOut) ∧
      (opens.saveOut → d'.bin = some (mergedKey cfg opens secrets randomVec d)) := by
  obtain ⟨hparts₀, htmp₀⟩ := tmpStage cfg opens secrets randomVec
    (List.range secrets.length ×ˢ List.range cfg.threadNum) (fun p hp ↦ ((mem_tasks cfg).mp hp).1) d
  have hnum (t : ℕ) : (foundKeys cfg opens secrets randomVec d t).length = secrets.length := by
    simp [foundKeys]
  obtain ⟨d₁, hd₁, hparts₁⟩ := binStage cfg hk hnum (fun f hf t ht ↦ (hfound f hf t ht).1)
    (fun t ht f hf ↦ by
      rw [hnum] at hf
      rw [htmp₀ f t]
      simp only [foundKeys, List.getElem_map, List.getElem_range]
      split_ifs with hmerged hopen hopen
      · rfl
      · exact absurd hmerged.2 hopen
      · exact absurd ⟨(mem_tasks cfg).mpr ⟨hf, ht⟩, hopen⟩ hmerged
      · obtain ⟨b, hb⟩ := Option.ne_none_iff_exists'.mp ((hfound f hf t ht).2.resolve_left hopen)
        rw [hb, Option.getD_some]) hkey
  obtain ⟨s, hs, hbuf⟩ := mergeStage cfg opens (d := d₁)
    (fun t ht ↦ by rw [hparts₁ t ht, hparts₀]; rfl) hpart
  simp only [generateKey, List.length_map]
  rw [hd₁, Option.bind_some, hs, Option.map_some]
  split_ifs with hsave
  · exact ⟨_, by rw [hsave], fun _ ↦ congrArg some hbuf⟩
  · exact ⟨_, by rw [Bool.eq_false_iff.mpr hsave], fun h ↦ absurd h hsave⟩

variable {opens}

theorem foundKeys_eq {t : ℕ} (h : ∀ f < secrets.length, opens.secretIn f t ∧ opens.tmpOut f t) :
    foundKeys cfg opens secrets randomVec d t = tmpKeys cfg secrets randomVec t := by
  apply List.map_congr_left
  intro f hf
  exact if_pos (h f (List.mem_range.mp hf))

theorem foundPart_eq {t : ℕ} (h : ∀ f < secrets.length, opens.secretIn f t ∧ opens.tmpOut f t)
    (hout : opens.binOut t) :
    foundPart cfg opens secrets randomVec d t = some (part cfg secrets randomVec t) := by
  rw [foundPart, if_pos hout, foundKeys_eq cfg h, part]

theorem mergedKey_eq (h : ∀ t < cfg.threadNum,
    (∀ f < secrets.length, opens.secretIn f t ∧ opens.tmpOut f t) ∧ opens.binOut t ∧
      opens.mergeIn t) :
    mergedKey cfg opens secrets randomVec d = runningKey cfg secrets randomVec := by
  apply List.flatMap_congr
  intro t ht
  obtain ⟨htmp, hout, hin⟩ := h t (List.mem_range.mp ht)
  rw [mergedPart, if_pos hin, foundPart_eq cfg htmp hout, Option.getD_some]

end Found

theorem generateKey_all (secrets : List Bytes) (randomVec : List (List ℕ)) (d : RunDir)
    (hk : secrets ≠ [])
    (hrow : ∀ f < secrets.length, ∀ t < cfg.threadNum,
      (randomVec.getD (f * cfg.threadNum + t) []).length = randomNum cfg) :
    ∃ d', generateKey cfg Opens.all (secrets.map some) randomVec d = some (d', true) ∧
      d'.bin = some (runningKey cfg secrets randomVec) := by
  obtain ⟨d', hd', hbin⟩ := generateKey_eq cfg Opens.all (d := d)
    (List.length_pos_iff.mpr hk) (fun _ _ _ _ ↦ ⟨rfl, .inl ⟨rfl, rfl⟩⟩)
    (fun t ht ↦ by
      rw [foundKeys_eq cfg fun _ _ ↦ ⟨rfl, rfl⟩]
      exact tmpKeys_length cfg fun f hf ↦ hrow f hf t ht)
    (fun t _ b hb ↦ by
      rw [foundPart_eq cfg (fun _ _ ↦ ⟨rfl, rfl⟩) rfl] at hb
      exact Option.some.inj hb ▸ part_length cfg secrets randomVec t)
  exact ⟨d', hd', (hbin rfl).trans (congrArg some (mergedKey_eq cfg fun _ _ ↦
    ⟨fun _ _ ↦ ⟨rfl, rfl⟩, rfl, rfl⟩))⟩

end ShannonNet.Generator
