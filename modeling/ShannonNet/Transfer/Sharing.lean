import ShannonNet.Library.Scan
import ShannonNet.Transfer.Validity

namespace ShannonNet.Transfer.Sharing

open Library Library.Runs Library.Bitset Client InitSecrets Utils

variable {cfg : Config}

/-- All indices side by side, and what the generator of each side has read for each index of the
directory of its secrets. A scan stands for `pathAndSizeVec` by the names without `.bin`. -/
structure State (cfg : Config) where
  transfer : Index → Transfer.State cfg
  reading : Index → Source → Scan Index

inductive Act (cfg : Config)
  | transfer (index : Index) (a : Transfer.Act cfg)
  | readEntry (index : Index) (source : Source) (name : Index)
  | readEnd (index : Index) (source : Source)

def State.start (transfer : Index → Transfer.State cfg) : State cfg :=
  ⟨transfer, fun _ _ ↦ .start⟩

variable (env : Env cfg) (dir : Source → Str)

/-- The directory of a side has the file. No entry has a slash in its name. -/
def listed (s : Index → Transfer.State cfg) (source : Source) (name : Index) : Bool :=
  !name.contains '/' && ((s name).slot.secret (source, env.clientNode)).isSome

/-- What the loop of `readFileSize` makes of the entry of a name. -/
def sees (s : Index → Transfer.State cfg) (source : Source) (name : Index) : Bool :=
  listed env s source name &&
    (readEntry (dir source) (fun index ↦ (s index).slot.valid env.clientNode)
      ⟨name ++ ['.', 'b', 'i', 'n'], false,
        (((s name).slot.secret (source, env.clientNode)).getD []).length⟩).isSome

/-- The running key is made of what the finished reading has found. -/
def State.waits (s : State cfg) (index : Index) : Transfer.Act cfg → Bool
  | .generator source o =>
    decide ((s.transfer index).generator source = .saveRunning) && o.running.isSome &&
      !(s.reading index source).finished
  | _ => false

def State.reads (s : State cfg) (index : Index) (source : Source) : Bool :=
  decide ((s.transfer index).generator source = .saveRunning) &&
    !(s.reading index source).finished

def State.setReading (s : State cfg) (index : Index) (source : Source) (r : Scan Index) :
    State cfg :=
  { s with
    reading := Function.update s.reading index (Function.update (s.reading index) source r) }

def State.step (s : State cfg) : Act cfg → Option (State cfg)
  | .transfer index a =>
    if s.waits index a then none
    else ((s.transfer index).step env index a).map fun t ↦
      { s with transfer := Function.update s.transfer index t }
  | .readEntry index source name =>
    let r := s.reading index source
    if s.reads index source && !r.visited.contains name then
      some (s.setReading index source (r.visit name (sees env dir s.transfer source name)))
    else none
  | .readEnd index source =>
    let r := s.reading index source
    if s.reads index source then some (s.setReading index source r.finish) else none

/-- `readdir` returns every file that is there until the end. -/
def Listed (s : State cfg) : Act cfg → Prop
  | .readEnd index source => ∀ name, listed env s.transfer source name = true →
    name ∈ (s.reading index source).visited
  | _ => True

/-- A side reads an entry, or passes it over, only when a side that has still to decide it would
find the same; and what a side finds changes only when for every index that side has decided the
entry or no side has. -/
def Settled (s : State cfg) : Act cfg → Prop
  | .transfer name a => ∀ t, (s.transfer name).step env name a = some t → ∀ source,
    sees env dir (Function.update s.transfer name t) source name ≠
      sees env dir s.transfer source name →
    ∀ index, (s.reading index source).Decided name ∨
      ∀ other, ¬(s.reading index other).Decided name
  | .readEntry index source name => ∀ other, ¬(s.reading index other).Decided name →
    sees env dir s.transfer source name = sees env dir s.transfer other name
  | .readEnd index source => ∀ other name, ¬(s.reading index source).Decided name →
    ¬(s.reading index other).Decided name →
    sees env dir s.transfer source name = sees env dir s.transfer other name

variable {env dir}

theorem findLastOf_bin (name : Str) :
    findLastOf '.' (name ++ ['.', 'b', 'i', 'n']) = some name.length :=
  findLastOf_append_of_some (k := 0) rfl

/-- The entry of a name counts by the score of the name alone. -/
theorem sees_eq_true_iff {s : Index → Transfer.State cfg} {source : Source} {name : Index} :
    sees env dir s source name = true ↔ listed env s source name = true ∧
      ((s name).slot.valid env.clientNode).getD 0 = nodeSecretValid := by
  rw [sees, Bool.and_eq_true]
  apply and_congr_right
  intro hlisted
  have hslash : '/' ∉ name := by
    intro hmem
    simp [listed, hmem] at hlisted
  have hentry : '/' ∉ name ++ ['.', 'b', 'i', 'n'] := by
    rw [List.mem_append, not_or]
    exact ⟨hslash, by decide⟩
  have hstem : Path.stem (name ++ ['.', 'b', 'i', 'n']) = name := by
    rw [Path.stem, findLastOf_bin]
    simp
  have hext : Path.extension (name ++ ['.', 'b', 'i', 'n']) = ['.', 'b', 'i', 'n'] := by
    rw [Path.extension, findLastOf_bin]
    simp
  rw [readEntry_eq _ _ _ hentry]
  simp [hstem, hext]

theorem sees_congr {s t : Index → Transfer.State cfg} {name : Index}
    (h : (t name).slot = (s name).slot) (source : Source) :
    sees env dir t source name = sees env dir s source name := by
  rw [Bool.eq_iff_iff, sees_eq_true_iff, sees_eq_true_iff, listed, listed, h]

theorem sees_update_of_ne {s : Index → Transfer.State cfg} {index name : Index}
    {t : Transfer.State cfg} (h : name ≠ index) (source : Source) :
    sees env dir (Function.update s index t) source name = sees env dir s source name :=
  sees_congr (by rw [Function.update_of_ne h]) source

theorem coherent_setReading {s : State cfg} {index : Index} {source : Source} {r : Scan Index}
    (hs : ∀ index, Coherent (sees env dir s.transfer) (s.reading index))
    (hr : Scan.Step (sees env dir s.transfer source) (s.reading index source) r)
    (hview : ∀ other name, ¬(s.reading index source).Decided name → r.Decided name →
      ¬(s.reading index other).Decided name →
      sees env dir s.transfer source name = sees env dir s.transfer other name) (i : Index) :
    Coherent (sees env dir s.transfer) ((s.setReading index source r).reading i) := by
  dsimp only [State.setReading]
  by_cases hi : i = index
  · subst hi
    rw [Function.update_self]
    exact (hs i).step hr hview
  · rw [Function.update_of_ne hi]
    exact hs i

theorem coherent_step {s t : State cfg} {a : Act cfg}
    (hs : ∀ index, Coherent (sees env dir s.transfer) (s.reading index)) (hlisted : Listed env s a)
    (hsettled : Settled env dir s a) (h : s.step env dir a = some t) :
    ∀ index, Coherent (sees env dir t.transfer) (t.reading index) := by
  cases a with
  | transfer name a =>
    simp only [State.step] at h
    split_ifs at h
    obtain ⟨u, hu, rfl⟩ := Option.map_eq_some_iff.mp h
    intro index
    apply (hs index).of_view
    intro source x hchange
    by_cases hx : x = name
    · subst hx
      exact hsettled u hu source hchange index
    · exact absurd (sees_update_of_ne hx source) hchange
  | readEntry index source name =>
    simp only [State.step] at h
    split_ifs at h with hreads
    cases h
    have hnew : ¬(s.reading index source).Decided name := by
      rintro (hfinished | hmem)
      · simp [State.reads, hfinished] at hreads
      · simp [hmem] at hreads
    apply coherent_setReading hs (Scan.step_visit ((hs index).undecided source) hnew)
    intro other x hx hvisited hother
    obtain rfl := (Scan.visit_decided.mp hvisited).resolve_right hx
    exact hsettled other hother
  | readEnd index source =>
    simp only [State.step] at h
    split_ifs at h
    cases h
    refine coherent_setReading hs (Scan.step_finish ((hs index).undecided source) ?_)
      fun other name hname _ hother ↦ hsettled other name hname hother
    intro name hname
    by_contra hsees
    have hmem := hlisted name (sees_eq_true_iff.mp (by simpa using hsees)).1
    exact hname (.inr hmem)

/-- In a run whose readings and changes do not cross, both sides have found the same files for an
index once both have read their directories. -/
theorem same_files {transfer : Index → Transfer.State cfg} {t : State cfg}
    (hrun : Reachable (State.step env dir) (fun s a ↦ Listed env s a ∧ Settled env dir s a)
      (State.start transfer) t) {index : Index}
    (hserver : (t.reading index .server).finished = true)
    (hclient : (t.reading index .client).finished = true) :
    ∀ name, name ∈ (t.reading index .server).accepted ↔
      name ∈ (t.reading index .client).accepted := by
  have hcoherent : ∀ index, Coherent (sees env dir t.transfer) (t.reading index) := by
    apply hrun.invariant
      (I := fun s ↦ ∀ index, Coherent (sees env dir s.transfer) (s.reading index))
    · exact fun _ ↦ Coherent.start
    · intro s a t hs ha h
      exact coherent_step hs ha.1 ha.2 h
  exact (hcoherent index).eq_of_finished hserver hclient

section Directory

variable {P : State cfg → Act cfg → Prop} {s : State cfg} {index : Index} {source : Source}
  {L : List Index}

theorem setReading_self : s.setReading index source (s.reading index source) = s := by
  rw [State.setReading, Function.update_eq_self, Function.update_eq_self]

theorem setReading_reading (r : Scan Index) :
    (s.setReading index source r).reading index source = r := by
  simp only [State.setReading, Function.update_self]

theorem setReading_setReading (r r' : Scan Index) :
    (s.setReading index source r).setReading index source r' = s.setReading index source r' := by
  simp only [State.setReading, Function.update_self, Function.update_idem]

/-- The files are among the names of the list. -/
def Covers (env : Env cfg) (L : List Index) (s : Index → Transfer.State cfg) : Prop :=
  ∀ source name, listed env s source name = true → name ∈ L

theorem Covers.mono {s : Index → Transfer.State cfg} {L' : List Index} (h : Covers env L s)
    (hsub : L ⊆ L') : Covers env L' s :=
  fun source name hname ↦ hsub (h source name hname)

theorem Covers.update {s : Index → Transfer.State cfg} (h : Covers env L s) (hindex : index ∈ L)
    (t : Transfer.State cfg) : Covers env L (Function.update s index t) := by
  intro source name hname
  by_cases hne : name = index
  · exact hne ▸ hindex
  · rw [listed, Function.update_of_ne hne] at hname
    exact h source name hname

theorem reachable_entries (env : Env cfg) (dir : Source → Str) (hL : L.Nodup)
    (hnew : ∀ name ∈ L, name ∉ (s.reading index source).visited)
    (hreads : s.reads index source = true)
    (hP : ∀ u name, u.transfer = s.transfer → P u (.readEntry index source name)) :
    Reachable (State.step env dir) P s (s.setReading index source
      (Scan.visitAll (sees env dir s.transfer source) L (s.reading index source))) := by
  induction L generalizing s with
  | nil =>
    rw [Scan.visitAll, List.foldl_nil, setReading_self]
    exact .start
  | cons name L ih =>
    obtain ⟨hname, hL⟩ := List.nodup_cons.mp hL
    let s' := s.setReading index source
      ((s.reading index source).visit name (sees env dir s.transfer source name))
    have hstep : s.step env dir (.readEntry index source name) = some s' :=
      if_pos (by simp [hreads, hnew name List.mem_cons_self])
    have hrest := ih (s := s') hL ?_ ?_ hP
    · rw [setReading_setReading, setReading_reading] at hrest
      exact (Reachable.next .start (hP s name rfl) hstep).trans hrest
    · intro name' hmem hvisited
      rw [setReading_reading] at hvisited
      rcases List.mem_cons.mp hvisited with rfl | hvisited
      · exact hname hmem
      · exact hnew name' (List.mem_cons_of_mem name hmem) hvisited
    · simp only [State.reads, s', setReading_reading]
      exact hreads

/-- A side reads its whole directory without a step of anybody else. -/
theorem reachable_directory (hL : L.Nodup) (hcovers : Covers env L s.transfer)
    (hr : s.reading index source = .start)
    (hpc : (s.transfer index).generator source = .saveRunning)
    (hP : ∀ u name, u.transfer = s.transfer → P u (.readEntry index source name))
    (hend : ∀ u, u.transfer = s.transfer → Listed env u (.readEnd index source) →
      P u (.readEnd index source)) :
    Reachable (State.step env dir) P s (s.setReading index source
      (Scan.visitAll (sees env dir s.transfer source) L .start).finish) := by
  have hreads : s.reads index source = true := by simp [State.reads, hpc, hr, Scan.start]
  have hentries := reachable_entries env dir hL
    (by rw [hr]; exact fun _ _ ↦ List.not_mem_nil) hreads hP
  rw [hr] at hentries
  have hstep : (s.setReading index source
      (Scan.visitAll (sees env dir s.transfer source) L .start)).step env dir
        (.readEnd index source) = some (s.setReading index source
          (Scan.visitAll (sees env dir s.transfer source) L .start).finish) := by
    have hreads' : (s.setReading index source
        (Scan.visitAll (sees env dir s.transfer source) L .start)).reads index source = true := by
      rw [State.reads, setReading_reading, Scan.visitAll_finished]
      simp [State.setReading, Scan.start, hpc]
    simp only [State.step, hreads', if_true, setReading_reading, setReading_setReading]
  refine hentries.next (hend _ rfl ?_) hstep
  intro name hname
  rw [setReading_reading]
  exact Scan.mem_visitAll_visited.mpr (.inl (hcovers source name hname))

/-- The readings of an index are not begun or over. -/
def Whole (s : State cfg) (index : Index) : Prop :=
  ∀ source, s.reading index source = .start ∨ (s.reading index source).finished = true

/-- What stays while one index goes on. -/
structure Beside (s t : State cfg) (index : Index) : Prop where
  other : ∀ i ≠ index, t.reading i = s.reading i
  whole : Whole t index
  finished : ∀ source, (s.reading index source).finished = true →
    t.reading index source = s.reading index source

theorem Beside.trans {t u : State cfg} (h : Beside s t index) (h' : Beside t u index) :
    Beside s u index := by
  refine ⟨fun i hi ↦ (h'.other i hi).trans (h.other i hi), h'.whole, ?_⟩
  intro source hfinished
  have hsame := h.finished source hfinished
  rw [h'.finished source (hsame ▸ hfinished), hsame]

theorem beside_finish {r : Scan Index} (hs : Whole s index)
    (hr : (s.reading index source).finished = false) :
    Beside s (s.setReading index source r.finish) index := by
  refine ⟨fun i hi ↦ Function.update_of_ne hi _ _, ?_, ?_⟩
  · intro source'
    by_cases hsource : source' = source
    · subst hsource
      rw [setReading_reading]
      exact .inr rfl
    · simpa [State.setReading, hsource] using hs source'
  · intro source' hfinished
    by_cases hsource : source' = source
    · subst hsource
      rw [hr] at hfinished
      cases hfinished
    · simp [State.setReading, hsource]

/-- A side that has to read its directory first does so. -/
theorem exists_ready (dir : Source → Str) (hL : L.Nodup) (hcovers : Covers env L s.transfer)
    (hs : Whole s index) (a : Transfer.Act cfg) :
    ∃ t, Reachable (State.step env dir) (Listed env) s t ∧ t.transfer = s.transfer ∧
      t.waits index a = false ∧ Beside s t index := by
  cases hwaits : s.waits index a with
  | false => exact ⟨s, .start, rfl, hwaits, fun _ _ ↦ rfl, hs, fun _ _ ↦ rfl⟩
  | true =>
    cases a with
    | generator source o =>
      simp only [State.waits, Bool.and_eq_true, decide_eq_true_eq, Bool.not_eq_true'] at hwaits
      obtain ⟨⟨hpc, -⟩, hfinished⟩ := hwaits
      have hstart : s.reading index source = .start :=
        (hs source).resolve_right (by rw [hfinished]; simp)
      refine ⟨_, reachable_directory hL hcovers hstart hpc (fun _ _ _ ↦ trivial)
        fun _ _ hlisted ↦ hlisted, rfl, ?_, beside_finish hs hfinished⟩
      simp only [State.waits, setReading_reading, Scan.finish, Bool.not_true, Bool.and_false]
    | _ => cases hwaits

/-- A run of one index, with the readings put in front of its running keys. -/
theorem exists_lift (dir : Source → Str) {Q : Transfer.State cfg → Transfer.Act cfg → Prop}
    {u : Transfer.State cfg} (hL : L.Nodup) (hindex : index ∈ L)
    (hcovers : Covers env L s.transfer) (hs : Whole s index)
    (hrun : Reachable (Transfer.State.step env index) Q (s.transfer index) u) :
    ∃ t, Reachable (State.step env dir) (Listed env) s t ∧
      t.transfer = Function.update s.transfer index u ∧ Beside s t index := by
  induction hrun with
  | start =>
    exact ⟨s, .start, (Function.update_eq_self _ _).symm, fun _ _ ↦ rfl, hs, fun _ _ ↦ rfl⟩
  | @next v w a _ _ hstep ih =>
    obtain ⟨t, ht, htransfer, hbeside⟩ := ih
    obtain ⟨t', ht', htransfer', hwaits, hbeside'⟩ := exists_ready dir hL
      (by rw [htransfer]; exact hcovers.update hindex v) hbeside.whole a
    have hv : t'.transfer index = v := by rw [htransfer', htransfer, Function.update_self]
    have hlift : t'.step env dir (.transfer index a) =
        some { t' with transfer := Function.update s.transfer index w } := by
      simp only [State.step, hwaits, Bool.false_eq_true, if_false, hv, hstep, Option.map_some]
      rw [htransfer', htransfer, Function.update_idem]
    obtain ⟨hother, hwhole, hfinished⟩ := hbeside.trans hbeside'
    exact ⟨_, (ht.trans ht').next (a := .transfer index a) trivial hlift, rfl, hother, hwhole,
      hfinished⟩

end Directory

section Example

def otherIndex : Index := "aM96UXFs4WKKC7nY".toList

def names : List Index := exampleIndex :: otherIndex :: initSecrets

theorem names_nodup : names.Nodup := by decide

theorem initSecrets_subset : initSecrets ⊆ names := by decide

theorem releaseInit_covers : Covers releaseEnv initSecrets releaseInit := by
  intro source name hname
  by_contra hmem
  have hnot : initSecrets.contains name = false := by simpa using hmem
  rw [listed, releaseInit, init_of_not hnot] at hname
  simp [State.fresh, Slot.empty, State.slot] at hname

def releaseDir (source : Source) : Str :=
  Path.join ("/home/wangkc/shannonnet/".toList ++
    (match source with
      | .server => "server".toList
      | .client => "client".toList) ++ "/secrets/".toList) "node_0_1".toList

def generate (source : Source) : Act Config.release :=
  .transfer otherIndex (.generator source ⟨some releaseKey, some releaseSecret.bytes, 1700000000⟩)

/-- The turn of the generator over the message of the server. -/
theorem exists_serverTurn : ∃ t,
    Reachable (State.step releaseEnv releaseDir) (Listed releaseEnv) (State.start releaseInit) t ∧
      (∀ i ≠ otherIndex, t.transfer i = releaseInit i ∧ t.reading i = fun _ ↦ .start) ∧
      t.reading otherIndex .server = ⟨initSecrets.reverse, initSecrets, true⟩ ∧
      t.reading otherIndex .client = .start ∧
      (t.transfer otherIndex).generator .client = .createTime ∧
      (t.transfer otherIndex).slot.time .client = none := by
  have hrun : Reachable (State.step releaseEnv releaseDir) (Listed releaseEnv)
      (State.start releaseInit) (State.start releaseInit) := .start
  have hrun := hrun.trans (.of_exec_mem
    (generate .server :: initSecrets.map (.readEntry otherIndex .server)) rfl (by
      intro a ha s
      rcases List.mem_cons.mp ha with rfl | ha
      · trivial
      · obtain ⟨name, -, rfl⟩ := List.mem_map.mp ha
        trivial))
  have hrun := hrun.next (a := .readEnd otherIndex .server) (by
    intro name hname
    have hmem : name ∈ initSecrets := by
      by_cases hne : name = otherIndex
      · subst hne
        cases hname
      · refine releaseInit_covers .server name ?_
        rw [← hname, listed, listed]
        exact congrArg _ (congrArg _ (congrArg (fun s : Transfer.State Config.release ↦
          s.slot.secret (.server, releaseEnv.clientNode)) (Function.update_of_ne hne _ _).symm))
    exact List.mem_reverse.mpr hmem) rfl
  have hrun := hrun.trans (.of_exec_mem (List.replicate 5 (generate .server)) rfl (by
    intro a ha s
    rw [List.eq_of_mem_replicate ha]
    trivial))
  refine ⟨_, hrun, ?_, rfl, rfl, rfl, rfl⟩
  intro i hi
  simp [Function.update_of_ne hi, State.setReading, State.start]

def turned (b : Transfer.State Config.release) (source : Source) :
    Transfer.State Config.release :=
  { b with generator := Function.update b.generator source .saveRunning }

section Turn

variable {s : State Config.release} {source : Source}

theorem turned_step (hpc : (s.transfer otherIndex).generator source = .createTime)
    (htime : (s.transfer otherIndex).slot.time source = none) :
    (s.transfer otherIndex).step releaseEnv otherIndex
        (.generator source ⟨some releaseKey, some releaseSecret.bytes, 1700000000⟩) =
      some (turned (s.transfer otherIndex) source) := by
  simp only [Transfer.State.step, hpc, Generator.Pc.step, htime]
  rfl

def readTurn (s : State Config.release) (source : Source) : State Config.release :=
  let transfer := Function.update s.transfer otherIndex (turned (s.transfer otherIndex) source)
  { s with transfer := transfer }.setReading otherIndex source
    (Scan.visitAll (sees releaseEnv releaseDir transfer source) names .start).finish

/-- The turn of the generator over the message of a side, as far as its directory is read. -/
theorem reachable_readTurn (source : Source) {P : State Config.release → Act Config.release → Prop}
    (hcovers : Covers releaseEnv names s.transfer) (hr : s.reading otherIndex source = .start)
    (hpc : (s.transfer otherIndex).generator source = .createTime)
    (htime : (s.transfer otherIndex).slot.time source = none) (hP : P s (generate source))
    (hread : ∀ u name, u.transfer = (readTurn s source).transfer →
      P u (.readEntry otherIndex source name))
    (hend : ∀ u, u.transfer = (readTurn s source).transfer →
      Listed releaseEnv u (.readEnd otherIndex source) → P u (.readEnd otherIndex source)) :
    Reachable (State.step releaseEnv releaseDir) P s (readTurn s source) := by
  have hstep : s.step releaseEnv releaseDir (generate source) =
      some { s with transfer := (readTurn s source).transfer } := by
    have hwaits : s.waits otherIndex
        (.generator source ⟨some releaseKey, some releaseSecret.bytes, 1700000000⟩) = false := by
      simp [State.waits, hpc]
    simp only [generate, State.step, hwaits, Bool.false_eq_true, if_false, turned_step hpc htime,
      Option.map_some]
    rfl
  refine (Reachable.next .start hP hstep).trans (reachable_directory names_nodup
    (hcovers.update (show otherIndex ∈ names by decide) _) hr ?_ hread hend)
  simp [readTurn, State.setReading, turned]

theorem readTurn_reading :
    (readTurn s source).reading otherIndex source = (Scan.visitAll (sees releaseEnv releaseDir
      (Function.update s.transfer otherIndex (turned (s.transfer otherIndex) source)) source)
        names .start).finish :=
  setReading_reading _

end Turn

theorem sees_eq_of_isSome {s : Index → Transfer.State cfg} {name : Index} {source other : Source}
    (h : ((s name).slot.secret (source, env.clientNode)).isSome =
      ((s name).slot.secret (other, env.clientNode)).isSome) :
    sees env dir s source name = sees env dir s other name := by
  rw [Bool.eq_iff_iff, sees_eq_true_iff, sees_eq_true_iff, listed, listed, h]

theorem releaseInit_sees {b : Transfer.State Config.release} (hb : b.slot = Slot.empty)
    (source other : Source) (name : Index) :
    sees releaseEnv releaseDir (Function.update releaseInit otherIndex b) source name =
      sees releaseEnv releaseDir (Function.update releaseInit otherIndex b) other name := by
  apply sees_eq_of_isSome
  by_cases hname : name = otherIndex
  · rw [hname, Function.update_self, hb]
    rfl
  · rw [Function.update_of_ne hname, releaseInit, init, initSlot]
    split_ifs <;> rfl

theorem readTurn_settled {s : State Config.release} {b : Transfer.State Config.release}
    (source : Source) (hs : s.transfer = Function.update releaseInit otherIndex b)
    (hb : b.slot = Slot.empty) (hpc : b.generator source = .createTime)
    (hr : s.reading otherIndex source = .start) :
    Reachable (State.step releaseEnv releaseDir)
        (fun s a ↦ Listed releaseEnv s a ∧ Settled releaseEnv releaseDir s a) s
        (readTurn s source) ∧
      (readTurn s source).transfer = Function.update releaseInit otherIndex (turned b source) := by
  have hb' : s.transfer otherIndex = b := by rw [hs, Function.update_self]
  have htime : (s.transfer otherIndex).slot.time source = none := by rw [hb', hb]; rfl
  have hturned : (readTurn s source).transfer =
      Function.update releaseInit otherIndex (turned b source) := by
    simp only [readTurn, State.setReading]
    rw [hb', hs, Function.update_idem]
  have hagree (source other : Source) (name : Index) :=
    releaseInit_sees (b := turned b source) hb source other name
  refine ⟨reachable_readTurn source ?_ hr (by rw [hb', hpc]) htime ⟨trivial, ?_⟩ ?_ ?_, hturned⟩
  · rw [hs]
    exact (releaseInit_covers.mono initSecrets_subset).update (by decide) b
  · intro t ht source' hchange
    rw [turned_step (by rw [hb', hpc]) htime] at ht
    cases ht
    refine absurd (sees_congr ?_ source') hchange
    rw [Function.update_self]
    rfl
  · intro u name hu
    refine ⟨trivial, fun other _ ↦ ?_⟩
    rw [hu, hturned]
    exact hagree source other name
  · intro u hu hlisted
    refine ⟨hlisted, fun other name _ _ ↦ ?_⟩
    rw [hu, hturned]
    exact hagree source other name

/-- Both sides read their directories while nothing else happens. -/
theorem same_files_init : ∃ t : State Config.release,
    (t.reading otherIndex .server).finished = true ∧
      "secret_1".toList ∈ (t.reading otherIndex .server).accepted ∧
      ∀ name, name ∈ (t.reading otherIndex .server).accepted ↔
        name ∈ (t.reading otherIndex .client).accepted := by
  have hfresh : releaseInit otherIndex = .fresh _ := init_of_not (by decide)
  have hstart : (State.start releaseInit).transfer =
      Function.update releaseInit otherIndex (.fresh _) := by
    rw [← hfresh, Function.update_eq_self]
    rfl
  obtain ⟨hrun₁, h₁⟩ := readTurn_settled .server hstart rfl rfl rfl
  obtain ⟨hrun₂, h₂⟩ := readTurn_settled .client h₁ rfl rfl rfl
  have hserver : (readTurn (readTurn (State.start releaseInit) .server) .client).reading otherIndex
      .server = (readTurn (State.start releaseInit) .server).reading otherIndex .server := by
    simp [readTurn, State.setReading]
  have hfinished : (readTurn (readTurn (State.start releaseInit) .server) .client).reading
      otherIndex .server |>.finished := by
    rw [hserver, readTurn_reading]
    rfl
  refine ⟨_, hfinished, ?_, same_files (hrun₁.trans hrun₂) hfinished ?_⟩
  · rw [hserver, readTurn_reading]
    refine Scan.mem_visitAll.mpr (.inl ⟨by decide, ?_⟩)
    rw [sees_update_of_ne (by decide), sees_eq_true_iff]
    exact ⟨rfl, rfl⟩
  · rw [readTurn_reading]
    rfl

theorem exists_transferred : ∃ u,
    Reachable (Transfer.State.step releaseEnv exampleIndex) (fun _ _ ↦ True)
      (releaseInit exampleIndex) u ∧
      (u.slot.secret (.client, releaseEnv.clientNode)).isSome ∧
      u.slot.valid releaseEnv.clientNode = some nodeSecretValid := by
  obtain ⟨s, hs, hpublished⟩ := exists_published releaseEnv exampleIndex releaseKey releaseSecret
  obtain ⟨u, hu, hstuck⟩ : ∃ u, Reachable (Transfer.State.step releaseEnv exampleIndex)
      (fun _ a ↦ IsTransfer a) s u ∧ ∀ a, u.step releaseEnv exampleIndex a = none :=
    exists_stuck live_step s hpublished.live
  have hlive := hu.invariant hpublished.live fun _ _ _ hv _ h ↦ (live_step _ _ _ hv h).1
  have hcomplete := complete_of_stuck hlive.toInvariant hstuck
  have hfresh : releaseInit exampleIndex = .fresh _ := init_of_not (by decide)
  refine ⟨u, ?_, by rw [hcomplete.copy]; rfl, hcomplete.valid⟩
  rw [hfresh]
  exact (hs.mono fun _ _ _ ↦ trivial).trans (hu.mono fun _ _ _ ↦ trivial)

/-- The first index is transferred between the two readings of the other one. -/
theorem files_differ : ∃ t,
    Reachable (State.step releaseEnv releaseDir) (Listed releaseEnv) (State.start releaseInit) t ∧
      (t.reading otherIndex .server).finished = true ∧
      (t.reading otherIndex .client).finished = true ∧
      exampleIndex ∈ (t.reading otherIndex .client).accepted ∧
      exampleIndex ∉ (t.reading otherIndex .server).accepted := by
  have hexample : exampleIndex ∈ names := by decide
  have hne : otherIndex ≠ exampleIndex := by decide
  obtain ⟨t₀, hrun₀, hrest, hserver, hclient, hpc, htime⟩ := exists_serverTurn
  have hcovers : Covers releaseEnv names t₀.transfer := by
    intro source name hname
    by_cases hname' : name = otherIndex
    · rw [hname']
      decide
    · rw [listed, (hrest name hname').1] at hname
      exact initSecrets_subset (releaseInit_covers source name hname)
  obtain ⟨u, hu, hcopy, hvalid⟩ := exists_transferred
  obtain ⟨t₁, hrun₁, htransfer, hbeside⟩ := exists_lift releaseDir names_nodup hexample
    (s := t₀) (Q := fun _ _ ↦ True) (u := u) hcovers
    (fun source ↦ .inl (congrFun (hrest exampleIndex hne.symm).2 source))
    (by rwa [(hrest exampleIndex hne.symm).1])
  have hsame : t₁.transfer otherIndex = t₀.transfer otherIndex := by
    rw [htransfer, Function.update_of_ne hne]
  have hreading : t₁.reading otherIndex = t₀.reading otherIndex := hbeside.other otherIndex hne
  have hrun₂ := reachable_readTurn (s := t₁) .client (P := Listed releaseEnv)
    (by rw [htransfer]; exact hcovers.update hexample u) (by rw [hreading, hclient])
    (by rw [hsame, hpc]) (by rw [hsame, htime]) trivial (fun _ _ _ ↦ trivial)
    fun _ _ hlisted ↦ hlisted
  have hserver₂ : (readTurn t₁ .client).reading otherIndex .server =
      ⟨initSecrets.reverse, initSecrets, true⟩ := by
    rw [← hserver, ← hreading]
    simp [readTurn, State.setReading]
  refine ⟨_, (hrun₀.trans hrun₁).trans hrun₂, ?_, ?_, ?_, ?_⟩
  · rw [hserver₂]
  · rw [readTurn_reading]
    rfl
  · rw [readTurn_reading]
    refine Scan.mem_visitAll.mpr (.inl ⟨hexample, ?_⟩)
    rw [sees_update_of_ne hne.symm, sees_eq_true_iff, htransfer, listed, Function.update_self,
      hcopy, hvalid]
    exact ⟨by decide, rfl⟩
  · rw [hserver₂]
    decide

end Example

end ShannonNet.Transfer.Sharing
