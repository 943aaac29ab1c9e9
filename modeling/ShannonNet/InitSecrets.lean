import ShannonNet.Client.Decrypt

namespace ShannonNet.InitSecrets

open Library.Bitset Library.Buffer Library.Loop Utils Client

/-- `.../shannonnet/%s/secrets/node_%d_%d/` and a file name: nothing else varies in `run`. -/
structure SecretPath where
  name : Source
  secretFile : Str
  deriving DecidableEq

abbrev Files := SecretPath → Option Bytes

def initName : List Source := [.server, .client]

/-- The stems of the two files `run` generates, which it enters into Redis as indices. -/
def initSecrets : List Index := ["secret_1".toList, "secret_2".toList]

/-- What `run` leaves under an index, for both sides alike, with the two files the same. -/
def initSlot (clientNode timeStamp : ℕ) (secret : Index → Bytes) (x : Index) : Slot :=
  if initSecrets.contains x then
    { Slot.empty with
      time := fun _ ↦ some timeStamp
      valid := fun nodeId ↦ if nodeId = clientNode then some nodeSecretValid else none
      secret := fun file ↦ if file.2 = clientNode then some (secret x) else none }
  else Slot.empty

variable (cfg : Config) {crc32c : Bytes → UInt32} (generated : Str → WaitingSecret cfg crc32c)

/-- The loop over `initSecrets` for one name, whose directory is there; `generated` is what
`generateSecretFile` writes. -/
def pathFile (name : Source) (s : Files × List SecretPath) (secretFile : Str) :
    Files × List SecretPath :=
  let secretFilePath : SecretPath := ⟨name, secretFile⟩
  let files := if name = .server then
    Function.update s.1 secretFilePath (some (generated secretFile).bytes) else s.1
  (files, s.2 ++ [secretFilePath])

def pathPhase (initSecrets : List Str) (s : Files × List (List SecretPath)) (name : Source) :
    Files × List (List SecretPath) :=
  let r := initSecrets.foldl (pathFile cfg generated name) (s.1, [])
  (r.1, s.2 ++ [r.2])

/-- The body of the copy loops; `none` is an access out of range. A file that does not open leaves
the buffer zero. -/
def copySecret (secretPathVec : List (List SecretPath)) (i : ℕ) (files : Files) (j : ℕ) :
    Option Files :=
  (secretPathVec[j]?.bind (·[i]?)).bind fun before ↦
    (secretPathVec[j + 1]?.bind (·[i]?)).map fun after ↦
      Function.update files after (some (load cfg.secretASize ((files before).getD []) 0))

def copyPhase (secretPathVec : List (List SecretPath)) (files : Files) : Option Files :=
  secretPathVec[0]?.bind fun first ↦
    (List.range secretPathVec.length).foldlM (fun files i ↦
      -- `j += 2` below `secretPathVec[0].size()`
      (List.range' 0 ((first.length + 1) / 2) 2).foldlM (copySecret cfg secretPathVec i) files)
      files

/-- `run()` up to its Redis part. -/
def run (initSecrets : List Str) (files : Files) : Option Files :=
  let s := initName.foldl (pathPhase cfg generated initSecrets) (files, [])
  copyPhase cfg s.2 s.1

variable {cfg generated} {initSecrets : List Str} {name : Source}

theorem pathFile_foldl_snd (s : Files × List SecretPath) :
    (initSecrets.foldl (pathFile cfg generated name) s).2 =
      s.2 ++ initSecrets.map (⟨name, ·⟩) := by
  induction initSecrets generalizing s with
  | nil => rw [List.foldl_nil, List.map_nil, List.append_nil]
  | cons secretFile rest ih =>
    rw [List.foldl_cons, ih, pathFile, List.append_assoc, List.map_cons, List.singleton_append]

theorem pathFile_foldl_client (s : Files × List SecretPath) :
    (initSecrets.foldl (pathFile cfg generated .client) s).1 = s.1 := by
  induction initSecrets generalizing s with
  | nil => rfl
  | cons secretFile rest ih => exact ih _

theorem pathFile_foldl_server {s : Files × List SecretPath} {secretFile : Str}
    (h : secretFile ∈ initSecrets ∨
      s.1 ⟨.server, secretFile⟩ = some (generated secretFile).bytes) :
    (initSecrets.foldl (pathFile cfg generated .server) s).1 ⟨.server, secretFile⟩ =
      some (generated secretFile).bytes := by
  induction initSecrets generalizing s with
  | nil => exact h.resolve_left List.not_mem_nil
  | cons first rest ih =>
    refine ih ?_
    dsimp only [pathFile]
    rw [if_pos rfl]
    by_cases hfirst : secretFile = first
    · subst hfirst
      rw [Function.update_self]
      exact Or.inr rfl
    · rw [Function.update_of_ne fun h ↦ hfirst (congrArg SecretPath.secretFile h)]
      exact h.imp_left fun hmem ↦ (List.mem_cons.mp hmem).resolve_left hfirst

theorem run_eq (generated : Str → WaitingSecret cfg crc32c) (initSecrets : List Str)
    (files : Files) :
    ∃ files', run cfg generated initSecrets files =
        copyPhase cfg [initSecrets.map (⟨.server, ·⟩), initSecrets.map (⟨.client, ·⟩)] files' ∧
      ∀ secretFile ∈ initSecrets,
        files' ⟨.server, secretFile⟩ = some (generated secretFile).bytes := by
  refine ⟨(initSecrets.foldl (pathFile cfg generated .server) (files, [])).1, ?_, ?_⟩
  · rw [run, initName, List.foldl_cons, List.foldl_cons, List.foldl_nil, pathPhase, pathPhase]
    dsimp only
    rw [pathFile_foldl_snd, pathFile_foldl_snd, pathFile_foldl_client]
    rfl
  · intro secretFile hmem
    exact pathFile_foldl_server (Or.inl hmem)

/-- With one name the loop over the rows runs past its columns, with three or more the loop over
the columns past the rows. -/
theorem copyPhase_none {rows cols : List SecretPath} (hlen : rows.length = cols.length)
    (hne : rows.length ≠ 2) (hpos : rows ≠ []) (files : Files) :
    copyPhase cfg [rows, cols] files = none := by
  rw [copyPhase, List.getElem?_cons_zero, Option.bind_some]
  have hlength := List.length_pos_iff.mpr hpos
  by_cases hone : rows.length = 1
  · refine foldlM_none (a := 1) (by simp) (fun files ↦ ?_) files
    refine foldlM_none (a := 0) (List.mem_range'.mpr ⟨0, by omega, rfl⟩) (fun files ↦ ?_) files
    have hcolumn : rows[1]? = none := List.getElem?_eq_none hone.le
    rw [copySecret, List.getElem?_cons_zero, Option.bind_some, hcolumn, Option.bind_none]
  · refine foldlM_none (a := 0) (by simp) (fun files ↦ ?_) files
    refine foldlM_none (a := 2) (List.mem_range'.mpr ⟨1, by omega, rfl⟩) (fun files ↦ ?_) files
    rfl

/-- Two names make the matrix square, and each is copied once. -/
theorem copyPhase_two (a b : Str) (files : Files) :
    copyPhase cfg [[⟨.server, a⟩, ⟨.server, b⟩], [⟨.client, a⟩, ⟨.client, b⟩]] files =
      some (Function.update
        (Function.update files ⟨.client, a⟩
          (some (load cfg.secretASize ((files ⟨.server, a⟩).getD []) 0)))
        ⟨.client, b⟩ (some (load cfg.secretASize ((files ⟨.server, b⟩).getD []) 0))) := by
  simp [copyPhase, copySecret, List.range_succ]

theorem initial_secrets_iff (cfg : Config) {crc32c : Bytes → UInt32}
    (generated : Str → WaitingSecret cfg crc32c) {initSecrets : List Str} (hne : initSecrets ≠ [])
    (hnodup : initSecrets.Nodup) (files : Files) :
    (∃ files', run cfg generated initSecrets files = some files' ∧
      ∀ secretFile ∈ initSecrets,
        files' ⟨.client, secretFile⟩ = some (generated secretFile).bytes) ↔
      initSecrets.length = 2 := by
  obtain ⟨files', hrun, hserver⟩ := run_eq generated initSecrets files
  rw [hrun]
  constructor
  · rintro ⟨result, hresult, -⟩
    by_contra hlen
    rw [copyPhase_none (by simp) (by simpa using hlen) (by simpa using hne)] at hresult
    cases hresult
  · intro hlen
    obtain ⟨a, b, rfl⟩ := List.length_eq_two.mp hlen
    have hab : a ≠ b := by
      rintro rfl
      simp at hnodup
    have hcopy (x : Str) (hx : x ∈ [a, b]) :
        load cfg.secretASize ((files' ⟨.server, x⟩).getD []) 0 = (generated x).bytes := by
      rw [hserver x hx, Option.getD_some, load_self (generated x).length_eq]
    refine ⟨_, copyPhase_two a b files', fun x hx ↦ ?_⟩
    rw [hcopy a (by simp), hcopy b (by simp)]
    by_cases hxb : x = b
    · subst hxb
      rw [Function.update_self]
    · have hxa : x = a := by simpa [hxb] using hx
      subst hxa
      rw [Function.update_of_ne fun h ↦ hxb (congrArg SecretPath.secretFile h),
        Function.update_self]

def releaseSecret : WaitingSecret Config.release fun _ ↦ 0 :=
  generateSecret Config.release _ (spike Config.release.secretASize 0) (spike_length _ _)

theorem initial_secrets_iff_two :
    (∃ files', run Config.release (fun _ ↦ releaseSecret) [['1'], ['2']] (fun _ ↦ none) =
        some files' ∧
      ∀ secretFile ∈ [['1'], ['2']],
        files' ⟨.client, secretFile⟩ = some releaseSecret.bytes) ↔ [['1'], ['2']].length = 2 :=
  initial_secrets_iff Config.release (fun _ ↦ releaseSecret) (by decide) (by decide) _

/-- A third name makes the loop read a third row of the matrix. -/
theorem third_name_out_of_range :
    ¬∀ initSecrets : List Str, initSecrets ≠ [] → initSecrets.Nodup → ∃ files',
      run Config.release (fun _ ↦ releaseSecret) initSecrets (fun _ ↦ none) = some files' ∧
        ∀ secretFile ∈ initSecrets,
          files' ⟨.client, secretFile⟩ = some releaseSecret.bytes := by
  intro h
  obtain ⟨files', hfiles', -⟩ := h [['1'], ['2'], ['3']] (by decide) (by decide)
  obtain ⟨files, hrun, -⟩ := run_eq (fun _ ↦ releaseSecret) [['1'], ['2'], ['3']]
    fun _ ↦ none
  rw [hrun, copyPhase_none (by decide) (by decide) (by decide)] at hfiles'
  cases hfiles'

end ShannonNet.InitSecrets
