import ShannonNet.Generator.Merge
import ShannonNet.Library.Tasks
import Mathlib.Data.Fintype.Sigma
import Mathlib.Data.Fintype.Sum
import Mathlib.Data.List.FinRange
import Mathlib.Tactic.DeriveFintype

namespace ShannonNet.Generator.Tasks

open Library.Bitset Library.Buffer Library.Runs Library.Tasks

/-- A file under `running/saveIdx/`. -/
inductive File
  | tmp (fileIdx threadIdx : ℕ)
  | part (threadIdx : ℕ)
  | bin
  deriving DecidableEq

abbrev Dir := File → Option Bytes

def read (d : RunDir) : Dir
  | .tmp fileIdx threadIdx => d.tmp fileIdx threadIdx
  | .part threadIdx => d.part threadIdx
  | .bin => d.bin

/-- Where a task stands: `processBinSecret` in its loop over the files, and both functions with
the key in memory, then with the truncated output file open. -/
inductive Local
  | start
  | reading (i : ℕ) (bufferVec : List Bytes)
  | removing (i : ℕ) (bufferVec : List Bytes)
  | computed (ss : Bytes)
  | opened (ss : Bytes)
  | ended
  | crashed
  deriving DecidableEq

/-- The last two steps of a task. -/
def save (opens : Bool) (file : File) : Local → Dir → Option (Local × Dir)
  | .computed ss, d =>
    if opens then some (.opened ss, Function.update d file (some [])) else some (.ended, d)
  | .opened ss, d => some (.ended, Function.update d file (some ss))
  | _, _ => none

/-- `none` is an access of `bufferVec` out of range. -/
def xorTmp (bufferVec : List Bytes) (fileNum : ℕ) : Option Bytes :=
  bufferVec[0]?.bind fun first ↦ (List.range first.length).mapM (xorColumn bufferVec fileNum)

variable (cfg : Config) (opens : Opens)

def tmpNext (secret : Option Bytes) (fileIdx threadIdx : ℕ) (vec : List ℕ) :
    Local → Dir → Option (Local × Dir)
  | .start, d =>
    match if opens.secretIn fileIdx threadIdx then secret else none with
    | none => some (.ended, d)
    | some file => some (.computed (tmpSecret cfg file threadIdx vec), d)
  | l, d => save (opens.tmpOut fileIdx threadIdx) (.tmp fileIdx threadIdx) l d

def binNext (threadIdx fileNum : ℕ) : Local → Dir → Option (Local × Dir)
  | .start, d => some (.reading 0 [], d)
  | .reading i bufferVec, d =>
    if i < fileNum then
      match if opens.binIn i threadIdx then d (.tmp i threadIdx) else none with
      | none => some (.reading (i + 1) bufferVec, d)
      | some buf => some (.removing i (bufferVec ++ [buf]), d)
    else
      match xorTmp bufferVec fileNum with
      | none => some (.crashed, d)
      | some ss => some (.computed ss, d)
  | .removing i bufferVec, d =>
    some (.reading (i + 1) bufferVec, Function.update d (.tmp i threadIdx) none)
  | l, d => save (opens.binOut threadIdx) (.part threadIdx) l d

theorem read_setTmp (d : RunDir) (f t : ℕ) (v : Option Bytes) :
    read (d.setTmp f t v) = Function.update (read d) (.tmp f t) v := by
  funext x
  cases x with
  | tmp f' t' =>
    by_cases h : f' = f ∧ t' = t
    · obtain ⟨rfl, rfl⟩ := h
      simp [read, RunDir.setTmp]
    · have hne : File.tmp f' t' ≠ .tmp f t := fun heq ↦ h (File.tmp.inj heq)
      rw [Function.update_of_ne hne]
      exact if_neg h
  | part t' => rw [Function.update_of_ne (by simp)]; rfl
  | bin => rw [Function.update_of_ne (by simp)]; rfl

theorem read_setPart (d : RunDir) (t : ℕ) (v : Option Bytes) :
    read (d.setPart t v) = Function.update (read d) (.part t) v := by
  funext x
  cases x with
  | part t' =>
    by_cases h : t' = t
    · subst h
      simp [read, RunDir.setPart]
    · have hne : File.part t' ≠ .part t := fun heq ↦ h (File.part.inj heq)
      rw [Function.update_of_ne hne]
      exact if_neg h
  | tmp f' t' => rw [Function.update_of_ne (by simp)]; rfl
  | bin => rw [Function.update_of_ne (by simp)]; rfl

theorem processBinSecret_eq_xorTmp (threadIdx fileNum : ℕ) (d : RunDir) :
    processBinSecret opens threadIdx fileNum d =
      let opened (i : ℕ) := if opens.binIn i threadIdx then d.tmp i threadIdx else none
      let d' := (List.range fileNum).foldl
        (fun d i ↦ if (opened i).isSome then d.setTmp i threadIdx none else d) d
      (xorTmp ((List.range fileNum).filterMap opened) fileNum).map fun ss ↦
        if opens.binOut threadIdx then d'.setPart threadIdx (some ss) else d' := by
  simp only [processBinSecret, xorTmp, Option.map_bind]
  rfl

section Alone

variable {cfg opens} {κ : Type} {next : Program κ File (Option Bytes) Local} {c : κ}

/-- The end of both functions, where the key is in memory. -/
theorem leads_save (flag : Bool) (file : File) (ss : Bytes) (d : Dir)
    (hcomputed : next c (.computed ss) d = save flag file (.computed ss) d)
    (hopened : ∀ d, next c (.opened ss) d = save flag file (.opened ss) d) :
    Leads (alone next c) (.computed ss, d)
      (.ended, if flag then Function.update d file (some ss) else d) := by
  cases flag with
  | false =>
    refine Leads.head (t := (.ended, d)) ?_ (.refl _)
    rw [alone]
    exact hcomputed
  | true =>
    refine Leads.head (t := (.opened ss, Function.update d file (some []))) ?_ ?_
    · rw [alone]
      exact hcomputed
    · refine Leads.head (t := (.ended, Function.update d file (some ss))) ?_ (.refl _)
      rw [alone, hopened]
      simp [save]

theorem tmp_alone {secret : Option Bytes} {f t : ℕ} {vec : List ℕ}
    (hnext : ∀ l d, next c l d = tmpNext cfg opens secret f t vec l d) (d : RunDir) :
    Leads (alone next c) (.start, read d)
      (.ended, read (processTmpSecret cfg opens secret f t vec d)) := by
  rw [processTmpSecret]
  cases hsecret : if opens.secretIn f t then secret else none with
  | none =>
    refine Leads.head (t := (.ended, read d)) ?_ (.refl _)
    simp only [alone, hnext, tmpNext, hsecret]
  | some file =>
    refine Leads.head (t := (.computed (tmpSecret cfg file t vec), read d)) ?_ ?_
    · simp only [alone, hnext, tmpNext, hsecret]
    · have hsave := leads_save (opens.tmpOut f t) (.tmp f t) (tmpSecret cfg file t vec) (read d)
        (hnext _ _) fun d ↦ hnext _ d
      dsimp only
      split_ifs with hout
      · rwa [if_pos hout, ← read_setTmp] at hsave
      · rwa [if_neg hout] at hsave

section Bin

variable {t fileNum : ℕ}

/-- The files among the first that were there to be read. -/
def found (opens : Opens) (t : ℕ) (d : RunDir) (i : ℕ) : Option Bytes :=
  if opens.binIn i t then d.tmp i t else none

def removed (opens : Opens) (t : ℕ) (d : RunDir) (n : ℕ) : RunDir :=
  (List.range n).foldl (fun e i ↦ if (found opens t d i).isSome then e.setTmp i t none else e) d

theorem removed_succ (d : RunDir) (n : ℕ) :
    removed opens t d (n + 1) = if (found opens t d n).isSome then
      (removed opens t d n).setTmp n t none else removed opens t d n := by
  simp only [removed, List.range_succ, List.foldl_append, List.foldl_cons, List.foldl_nil]

theorem removed_tmp (d : RunDir) {n i : ℕ} (hi : n ≤ i) :
    (removed opens t d n).tmp i t = d.tmp i t := by
  induction n with
  | zero => rfl
  | succ n ih =>
    rw [removed_succ]
    split_ifs
    · have hne : i ≠ n := by omega
      simp only [RunDir.setTmp, hne, false_and, if_false]
      exact ih (by omega)
    · exact ih (by omega)

theorem bin_reading (hnext : ∀ l d, next c l d = binNext opens t fileNum l d) (d : RunDir) {n : ℕ}
    (hn : n ≤ fileNum) :
    Leads (alone next c) (.start, read d)
      (.reading n ((List.range n).filterMap (found opens t d)), read (removed opens t d n)) := by
  induction n with
  | zero =>
    refine Leads.head (t := (.reading 0 [], read d)) ?_ (.refl _)
    simp only [alone, hnext, binNext]
  | succ n ih =>
    refine (ih (by omega)).trans ?_
    have hread : (if opens.binIn n t then read (removed opens t d n) (.tmp n t) else none) =
        found opens t d n := by
      rw [found]
      simp only [read, removed_tmp d le_rfl]
    have hstep (l : Local) (e : Dir) : alone next c (l, e) = binNext opens t fileNum l e :=
      hnext l e
    rw [List.range_succ, List.filterMap_append, removed_succ]
    cases hfound : found opens t d n with
    | none =>
      refine Leads.head ?_ (.refl _)
      rw [hstep, binNext, if_pos (by omega), hread, hfound]
      simp [hfound]
    | some buf =>
      refine Leads.head (t := (.removing n ((List.range n).filterMap (found opens t d) ++ [buf]),
        read (removed opens t d n))) ?_ (Leads.head ?_ (.refl _))
      · rw [hstep, binNext, if_pos (by omega), hread, hfound]
      · rw [hstep, binNext]
        simp [hfound, read_setTmp]

theorem bin_alone (hnext : ∀ l d, next c l d = binNext opens t fileNum l d) (d : RunDir) :
    (∀ d', processBinSecret opens t fileNum d = some d' →
      Leads (alone next c) (.start, read d) (.ended, read d')) ∧
    (processBinSecret opens t fileNum d = none →
      ∃ e, Leads (alone next c) (.start, read d) (.crashed, e)) := by
  have hrun := bin_reading hnext d le_rfl
  have hbody : processBinSecret opens t fileNum d =
      (xorTmp ((List.range fileNum).filterMap (found opens t d)) fileNum).map fun ss ↦
        if opens.binOut t then (removed opens t d fileNum).setPart t (some ss)
        else removed opens t d fileNum :=
    processBinSecret_eq_xorTmp opens t fileNum d
  rw [hbody]
  cases hxor : xorTmp ((List.range fileNum).filterMap (found opens t d)) fileNum with
  | none =>
    refine ⟨fun d' hd' ↦ (by cases hd'), fun _ ↦ ⟨read (removed opens t d fileNum), ?_⟩⟩
    refine hrun.trans (Leads.head (t := (.crashed, read (removed opens t d fileNum))) ?_ (.refl _))
    simp only [alone, hnext, binNext, lt_irrefl, if_false, hxor]
  | some ss =>
    refine ⟨fun d' hd' ↦ ?_, fun hnone ↦ by cases hnone⟩
    obtain rfl := Option.some.inj hd'
    refine hrun.trans (Leads.head
      (t := (.computed ss, read (removed opens t d fileNum))) ?_ ?_)
    · simp only [alone, hnext, binNext, lt_irrefl, if_false, hxor]
    · have hsave := leads_save (opens.binOut t) (.part t) ss (read (removed opens t d fileNum))
        (hnext _ _) fun d ↦ hnext _ d
      split_ifs with hout
      · rwa [if_pos hout, ← read_setPart] at hsave
      · rwa [if_neg hout] at hsave

end Bin

end Alone

section Stages

variable {cfg opens}

theorem binNext_eq_none {t fileNum : ℕ} {l : Local} {d : Dir}
    (h : binNext opens t fileNum l d = none) : l = .ended ∨ l = .crashed := by
  cases l with
  | start => cases h
  | reading i bufferVec =>
    simp only [binNext] at h
    split_ifs at h <;> split at h <;> cases h
  | removing i bufferVec => cases h
  | computed ss =>
    simp only [binNext, save] at h
    split_ifs at h
  | opened ss => cases h
  | ended => exact .inl rfl
  | crashed => exact .inr rfl

/-- What a step writes, and what it depends on. -/
structure Local.Within (foot : File → Prop) (next : Local → Dir → Option (Local × Dir)) : Prop where
  writes : ∀ {l d l' d'}, next l d = some (l', d') → ∀ x, ¬foot x → d' x = d x
  reads : ∀ {l d e l' d'}, (∀ x, foot x → d x = e x) → next l d = some (l', d') →
    ∃ e', next l e = some (l', e') ∧ ∀ x, foot x → d' x = e' x

theorem update_within {foot : File → Prop} {file : File} (hfile : foot file) {d e : Dir}
    (v : Option Bytes) :
    (∀ x, ¬foot x → Function.update d file v x = d x) ∧
      ((∀ x, foot x → d x = e x) → ∀ x, foot x →
        Function.update d file v x = Function.update e file v x) := by
  refine ⟨fun x hx ↦ ?_, fun hde x hx ↦ ?_⟩
  · have hne : x ≠ file := fun heq ↦ hx (heq ▸ hfile)
    rw [Function.update_of_ne hne]
  · by_cases heq : x = file
    · subst heq
      rw [Function.update_self, Function.update_self]
    · rw [Function.update_of_ne heq, Function.update_of_ne heq]
      exact hde x hx

theorem save_within (foot : File → Prop) {file : File} (hfile : foot file) (flag : Bool) :
    Local.Within foot (save flag file) := by
  refine ⟨fun {l d l' d'} h ↦ ?_, fun {l d e l' d'} hde h ↦ ?_⟩
  · cases l with
    | computed ss =>
      simp only [save] at h
      split_ifs at h <;> cases h
      · exact (update_within (e := d) hfile _).1
      · exact fun _ _ ↦ rfl
    | opened ss =>
      cases h
      exact (update_within (e := d) hfile _).1
    | _ => cases h
  · cases l with
    | computed ss =>
      simp only [save] at h ⊢
      split_ifs at h ⊢ <;> cases h
      · exact ⟨_, rfl, (update_within hfile _).2 hde⟩
      · exact ⟨_, rfl, hde⟩
    | opened ss =>
      cases h
      exact ⟨_, rfl, (update_within hfile _).2 hde⟩
    | _ => cases h

theorem tmp_within (secret : Option Bytes) (f t : ℕ) (vec : List ℕ) :
    Local.Within (fun x ↦ x = .tmp f t) (tmpNext cfg opens secret f t vec) := by
  have hsave := save_within (fun x ↦ x = .tmp f t) rfl (opens.tmpOut f t)
  refine ⟨fun {l d l' d'} h ↦ ?_, fun {l d e l' d'} hde h ↦ ?_⟩
  · cases l with
    | start =>
      simp only [tmpNext] at h
      split at h <;> cases h <;> exact fun _ _ ↦ rfl
    | _ =>
      simp only [tmpNext] at h
      exact hsave.writes h
  · cases l with
    | start =>
      simp only [tmpNext] at h ⊢
      split at h <;> cases h <;> exact ⟨e, rfl, hde⟩
    | _ =>
      simp only [tmpNext] at h ⊢
      exact hsave.reads hde h

/-- The files `processBinSecret` touches for one thread. -/
def binFoot (t : ℕ) (x : File) : Prop := x = .part t ∨ ∃ i, x = .tmp i t

theorem bin_within (t fileNum : ℕ) : Local.Within (binFoot t) (binNext opens t fileNum) := by
  have hsave := save_within (binFoot t) (.inl rfl) (opens.binOut t)
  have htmp (i : ℕ) : binFoot t (.tmp i t) := .inr ⟨i, rfl⟩
  refine ⟨fun {l d l' d'} h ↦ ?_, fun {l d e l' d'} hde h ↦ ?_⟩
  · cases l with
    | start =>
      cases h
      exact fun _ _ ↦ rfl
    | reading i bufferVec =>
      simp only [binNext] at h
      split_ifs at h <;> split at h <;> cases h <;> exact fun _ _ ↦ rfl
    | removing i bufferVec =>
      cases h
      exact (update_within (e := d) (htmp i) _).1
    | _ =>
      simp only [binNext] at h
      exact hsave.writes h
  · cases l with
    | start =>
      cases h
      exact ⟨e, rfl, hde⟩
    | reading i bufferVec =>
      simp only [binNext] at h ⊢
      rw [← hde _ (htmp i)]
      split_ifs at h ⊢ <;> split at h <;> cases h <;> exact ⟨e, rfl, hde⟩
    | removing i bufferVec =>
      cases h
      exact ⟨_, rfl, (update_within (htmp i) _).2 hde⟩
    | _ =>
      simp only [binNext] at h ⊢
      exact hsave.reads hde h

end Stages

/-- The tasks of one iteration, as they are handed to the pool. -/
inductive Task (fileNum threadNum : ℕ)
  | tmp (fileIdx : Fin fileNum) (threadIdx : Fin threadNum)
  | bin (threadIdx : Fin threadNum)
  deriving DecidableEq, Fintype

section Iteration

variable (secrets : List (Option Bytes)) (randomVec : List (List ℕ))

def next : Program (Task secrets.length cfg.threadNum) File (Option Bytes) Local
  | .tmp f t =>
    tmpNext cfg opens (secrets.getD f none) f t (randomVec.getD (f * cfg.threadNum + t) [])
  | .bin t => binNext opens t secrets.length

def tmpProgram : Program (Fin secrets.length × Fin cfg.threadNum) File (Option Bytes) Local :=
  fun p ↦ next cfg opens secrets randomVec (.tmp p.1 p.2)

def binProgram : Program (Fin cfg.threadNum) File (Option Bytes) Local :=
  fun t ↦ next cfg opens secrets randomVec (.bin t)

def tmpBody (p : Fin secrets.length × Fin cfg.threadNum) (d : RunDir) : Option RunDir :=
  some (processTmpSecret cfg opens (secrets.getD p.1 none) p.1 p.2
    (randomVec.getD (p.1 * cfg.threadNum + p.2) []) d)

def binBody (t : Fin cfg.threadNum) (d : RunDir) : Option RunDir :=
  processBinSecret opens t secrets.length d

/-- What follows the two stages. -/
def merge (d : RunDir) : Option (RunDir × Bool) :=
  ((List.range cfg.threadNum).foldlM (mergePart cfg opens)
      (zeros cfg.secretFileSize, d)).map fun s ↦
    if opens.saveOut then ({ s.2 with bin := some s.1 }, true) else (s.2, false)

theorem tmp_separate : Separate (tmpProgram cfg opens secrets randomVec)
    fun p x ↦ x = .tmp p.1 p.2 where
  writes h := (tmp_within _ _ _ _).writes h
  reads hfoot h := (tmp_within _ _ _ _).reads hfoot h
  disjoint {c d x} hc hd := by
    obtain ⟨hf, ht⟩ := File.tmp.inj (hc.symm.trans hd)
    exact Prod.ext (Fin.ext hf) (Fin.ext ht)

theorem bin_separate : Separate (binProgram cfg opens secrets randomVec)
    fun t ↦ binFoot t where
  writes h := (bin_within _ _).writes h
  reads hfoot h := (bin_within _ _).reads hfoot h
  disjoint {c d x} hc hd := by
    rcases hc with rfl | ⟨i, rfl⟩
    · rcases hd with heq | ⟨j, heq⟩
      · exact Fin.ext (File.part.inj heq)
      · cases heq
    · rcases hd with heq | ⟨j, heq⟩
      · cases heq
      · exact Fin.ext (File.tmp.inj heq).2

theorem tmp_computes : Computes (tmpProgram cfg opens secrets randomVec) .start .ended .crashed read
    (tmpBody cfg opens secrets randomVec) where
  done _ _ := rfl
  dead _ _ := rfl
  returns {_ s s'} h := by
    obtain rfl := Option.some.inj h
    exact tmp_alone (fun _ _ ↦ rfl) s
  fails h := nomatch h

theorem bin_computes : Computes (binProgram cfg opens secrets randomVec) .start .ended .crashed read
    (binBody cfg opens secrets) where
  done _ _ := rfl
  dead _ _ := rfl
  returns {_ s s'} h := (bin_alone (fun _ _ ↦ rfl) s).1 s' h
  fails {_ s} h := (bin_alone (fun _ _ ↦ rfl) s).2 h

def allTmp : List (Fin secrets.length × Fin cfg.threadNum) :=
  List.finRange secrets.length ×ˢ List.finRange cfg.threadNum

theorem allTmp_nodup : (allTmp cfg secrets).Nodup :=
  (List.nodup_finRange _).product (List.nodup_finRange _)

theorem mem_allTmp (p : Fin secrets.length × Fin cfg.threadNum) : p ∈ allTmp cfg secrets :=
  List.mem_product.mpr ⟨List.mem_finRange _, List.mem_finRange _⟩

theorem allTmp_map : (allTmp cfg secrets).map (fun p ↦ ((p.1 : ℕ), (p.2 : ℕ))) =
    List.range secrets.length ×ˢ List.range cfg.threadNum := by
  rw [← List.map_coe_finRange_eq_range, ← List.map_coe_finRange_eq_range]
  simp only [allTmp, SProd.sprod, List.product, List.map_flatMap, List.flatMap_map, List.map_map,
    Function.comp_def]

/-- What the first stage leaves. -/
def tmpDir (d : RunDir) : RunDir :=
  (List.range secrets.length ×ˢ List.range cfg.threadNum).foldl
    (fun d p ↦ processTmpSecret cfg opens (secrets.getD p.1 none) p.1 p.2
      (randomVec.getD (p.1 * cfg.threadNum + p.2) []) d) d

/-- What the second stage leaves. -/
def binDir (d : RunDir) : Option RunDir :=
  (List.range cfg.threadNum).foldlM
    (fun d threadIdx ↦ processBinSecret opens threadIdx secrets.length d) d

theorem tmpStage_eq (d : RunDir) :
    (allTmp cfg secrets).foldlM (fun d p ↦ tmpBody cfg opens secrets randomVec p d) d =
      some (tmpDir cfg opens secrets randomVec d) := by
  rw [tmpDir, ← allTmp_map, List.foldl_map]
  exact List.foldlM_pure

theorem binStage_eq (d : RunDir) :
    (List.finRange cfg.threadNum).foldlM (fun d t ↦ binBody cfg opens secrets t d) d =
      binDir cfg opens secrets d := by
  rw [binDir, ← List.map_coe_finRange_eq_range, List.foldlM_map]
  rfl

theorem generateKey_eq_stages (d : RunDir) : generateKey cfg opens secrets randomVec d =
    (binDir cfg opens secrets (tmpDir cfg opens secrets randomVec d)).bind (merge cfg opens) :=
  rfl

end Iteration

end ShannonNet.Generator.Tasks
