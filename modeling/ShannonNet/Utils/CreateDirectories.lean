import ShannonNet.Utils.Path
import Mathlib.Algebra.Group.Nat.Even

namespace ShannonNet.Utils

/-- `Path::ParentPath`. -/
def Path.parentPath (path : Str) : Str :=
  match findLastOf '/' path with
  | some found => if found = 0 then ['/'] else path.take found
  | none => []

/-- The system calls `CreateDirectories` makes. `stat` is `none` when it fails, else whether it
found a directory; a `mkdir` that fails changes nothing. -/
structure FileSystem (σ : Type) where
  stat : σ → Str → Option Bool
  mkdir : σ → Str → Option σ
  chmod : σ → Str → Option σ
  stat_parent : ∀ s path, stat s path = some true → Path.parentPath path ≠ [] →
    stat s (Path.parentPath path) = some true
  mkdir_stat : ∀ s s' path, mkdir s path = some s' →
    stat s path = none ∧ stat s' path = some true
  /-- With separators at its end, `path` names the same directory as its parent. -/
  mkdir_parent : ∀ s s' path, mkdir s path = some s' → Path.parentPath path ≠ [] →
    stat s (Path.parentPath path) = some true ∨ (mkdir s (Path.parentPath path)).isSome
  chmod_mkdir : ∀ s s' path, mkdir s path = some s' → (chmod s' path).isSome
  chmod_stat : ∀ s s' path, chmod s path = some s' → ∀ p, stat s' p = stat s p

section Calls

variable {σ : Type} (fs : FileSystem σ)

def FileSystem.isDirectory (s : σ) (path : Str) : Prop := fs.stat s path = some true

instance (s : σ) (path : Str) : Decidable (fs.isDirectory s path) :=
  inferInstanceAs (Decidable (fs.stat s path = some true))

def createDirectory (is_common_dir : Bool) (s : σ) (path : Str) : Bool × σ :=
  match fs.stat s path with
  | none =>
    match fs.mkdir s path with
    | none => (false, s)
    | some s' =>
      if is_common_dir then
        match fs.chmod s' path with
        | none => (false, s')
        | some s'' => (true, s'')
      else (true, s')
  | some isDirectory => (isDirectory, s)

/-- `Path::CreateDirectories`; `none` is the recursion not ended within `fuel` calls. -/
def createDirectories (is_common_dir : Bool) : ℕ → σ → Str → Option (Bool × σ)
  | 0, _, _ => none
  | fuel + 1, s, path =>
    if fs.isDirectory s path then some (true, s)
    else
      let parent := Path.parentPath path
      if parent ≠ [] then
        (createDirectories is_common_dir fuel s parent).map fun r ↦
          if r.1 then createDirectory fs is_common_dir r.2 path else (true, r.2)
      else some (createDirectory fs is_common_dir s path)

/-- The directories on the way to `path` that are missing, the outermost first. -/
def missing (s : σ) : ℕ → Str → List Str
  | 0, _ => []
  | fuel + 1, path =>
    if fs.isDirectory s path then []
    else
      let parent := Path.parentPath path
      if parent ≠ [] then missing s fuel parent ++ [path] else [path]

/-- Making directories one after the other: the state reached, and at a failure the number of
those left. -/
def build (is_common_dir : Bool) : σ → List Str → Option ℕ × σ
  | s, [] => (none, s)
  | s, path :: rest =>
    let r := createDirectory fs is_common_dir s path
    if r.1 then build is_common_dir r.2 rest else (some rest.length, r.2)

/-- The same for a list with `path` put at its end. -/
def buildLast (is_common_dir : Bool) (b : Option ℕ × σ) (path : Str) : Option ℕ × σ :=
  match b.1 with
  | none =>
    let r := createDirectory fs is_common_dir b.2 path
    (if r.1 then none else some 0, r.2)
  | some k => (some (k + 1), b.2)

/-- No call can make `path` a directory. -/
structure Stuck (s : σ) (path : Str) : Prop where
  not_dir : ¬fs.isDirectory s path
  mkdir : fs.mkdir s path = none

end Calls

section Outcome

variable {σ : Type} {fs : FileSystem σ} {is_common_dir : Bool} {s : σ} {path : Str}

theorem parentPath_length (hpath : path ≠ ['/']) (hne : Path.parentPath path ≠ []) :
    (Path.parentPath path).length < path.length := by
  unfold Path.parentPath at hne ⊢
  cases hfound : findLastOf '/' path with
  | none =>
    rw [hfound] at hne
    exact absurd rfl hne
  | some found =>
    have hlt := findLastOf_lt hfound
    dsimp only
    split_ifs with h0
    · -- a separator in front of a single character would be the root
      rw [List.length_singleton]
      by_contra hlen
      obtain ⟨x, rfl⟩ := List.length_eq_one_iff.mp (show path.length = 1 by omega)
      rw [findLastOf, findLastOf] at hfound
      dsimp only at hfound
      split_ifs at hfound with hx
      exact hpath (by rw [hx])
    · rw [List.length_take]
      omega

theorem createDirectory_true (h : (createDirectory fs is_common_dir s path).1 = true) :
    fs.isDirectory (createDirectory fs is_common_dir s path).2 path := by
  unfold createDirectory at h ⊢
  cases hstat : fs.stat s path with
  | some isDirectory =>
    rw [hstat] at h
    obtain rfl : isDirectory = true := h
    exact hstat
  | none =>
    rw [hstat] at h
    cases hmkdir : fs.mkdir s path with
    | none =>
      rw [hmkdir] at h
      cases h
    | some s' =>
      obtain ⟨-, hdir⟩ := fs.mkdir_stat s s' path hmkdir
      obtain ⟨s'', hchmod⟩ := Option.isSome_iff_exists.mp (fs.chmod_mkdir s s' path hmkdir)
      dsimp only
      rw [hchmod]
      split_ifs
      · exact (fs.chmod_stat s' s'' path hchmod path).trans hdir
      · exact hdir

theorem createDirectory_false (h : (createDirectory fs is_common_dir s path).1 = false) :
    (createDirectory fs is_common_dir s path).2 = s ∧ Stuck fs s path := by
  unfold createDirectory at h ⊢
  cases hstat : fs.stat s path with
  | some isDirectory =>
    rw [hstat] at h
    obtain rfl : isDirectory = false := h
    refine ⟨rfl, fun hdir ↦ ?_, ?_⟩
    · rw [FileSystem.isDirectory, hstat] at hdir
      cases hdir
    · rw [Option.eq_none_iff_forall_ne_some]
      intro s' hmkdir
      rw [(fs.mkdir_stat s s' path hmkdir).1] at hstat
      cases hstat
  | none =>
    rw [hstat] at h
    cases hmkdir : fs.mkdir s path with
    | none =>
      refine ⟨rfl, fun hdir ↦ ?_, hmkdir⟩
      rw [FileSystem.isDirectory, hstat] at hdir
      cases hdir
    | some s' =>
      obtain ⟨s'', hchmod⟩ := Option.isSome_iff_exists.mp (fs.chmod_mkdir s s' path hmkdir)
      rw [hmkdir] at h
      dsimp only at h
      rw [hchmod] at h
      split_ifs at h

theorem Stuck.createDirectory (h : Stuck fs s path) :
    createDirectory fs is_common_dir s path = (false, s) := by
  unfold Utils.createDirectory
  cases hstat : fs.stat s path with
  | some isDirectory =>
    cases isDirectory with
    | false => rfl
    | true => exact absurd hstat h.not_dir
  | none =>
    dsimp only
    rw [h.mkdir]

/-- Nothing can be made below a directory that cannot be made. -/
theorem Stuck.child (h : Stuck fs s (Path.parentPath path)) (hne : Path.parentPath path ≠ []) :
    Stuck fs s path := by
  refine ⟨fun hdir ↦ h.not_dir (fs.stat_parent s path hdir hne), ?_⟩
  rw [Option.eq_none_iff_forall_ne_some]
  intro s' hmkdir
  rcases fs.mkdir_parent s s' path hmkdir hne with hdir | hsome
  · exact h.not_dir hdir
  · rw [h.mkdir] at hsome
    cases hsome

theorem build_append (s : σ) (rest : List Str) (path : Str) :
    build fs is_common_dir s (rest ++ [path]) =
      buildLast fs is_common_dir (build fs is_common_dir s rest) path := by
  induction rest generalizing s with
  | nil =>
    rw [List.nil_append, build, build, buildLast]
    split_ifs with hp
    · dsimp only
      rw [if_pos hp, build]
    · dsimp only [List.length_nil]
      rw [if_neg hp]
  | cons p rest ih =>
    rw [List.cons_append, build, build]
    split_ifs with hp
    · exact ih _
    · rw [buildLast, List.length_append, List.length_singleton]

/-- What a call with the result `r` has done, next to making the missing directories in turn. -/
structure Ends (fs : FileSystem σ) (path : Str) (b : Option ℕ × σ) (r : Bool × σ) : Prop where
  state : r.2 = b.2
  made : b.1 = none → r.1 = true ∧ fs.isDirectory b.2 path
  failed : ∀ k, b.1 = some k → (r.1 = true ↔ ¬Even k) ∧ Stuck fs b.2 path

theorem Ends.unique {b : Option ℕ × σ} {r r' : Bool × σ} (h : Ends fs path b r)
    (h' : Ends fs path b r') : r = r' := by
  refine Prod.ext ?_ (h.state.trans h'.state.symm)
  cases hb : b.1 with
  | none => rw [(h.made hb).1, (h'.made hb).1]
  | some k => exact Bool.eq_iff_iff.mpr ((h.failed k hb).1.trans (h'.failed k hb).1.symm)

theorem Ends.trusted_iff {b : Option ℕ × σ} {r : Bool × σ} (h : Ends fs path b r) :
    (r.1 = true → fs.isDirectory r.2 path) ↔ ∀ k, b.1 = some k → Even k := by
  rw [h.state]
  constructor
  · intro htrue k hk
    obtain ⟨hflag, hstuck⟩ := h.failed k hk
    by_contra heven
    exact hstuck.not_dir (htrue (hflag.mpr heven))
  · intro heven htrue
    cases hb : b.1 with
    | none => exact (h.made hb).2
    | some k => exact absurd (heven k hb) ((h.failed k hb).1.mp htrue)

theorem createDirectory_ends (is_common_dir : Bool) (s : σ) (path : Str) :
    Ends fs path (buildLast fs is_common_dir (none, s) path)
      (createDirectory fs is_common_dir s path) := by
  rw [buildLast]
  dsimp only
  cases hr : (createDirectory fs is_common_dir s path).1 with
  | true =>
    refine ⟨rfl, fun _ ↦ ⟨hr, createDirectory_true hr⟩, fun k hk ↦ ?_⟩
    cases hk
  | false =>
    obtain ⟨hstate, hstuck⟩ := createDirectory_false hr
    refine ⟨rfl, fun hnone ↦ ?_, fun k hk ↦ ?_⟩
    · cases hnone
    · obtain rfl : 0 = k := Option.some.inj hk
      rw [hr, hstate]
      exact ⟨by simp, hstuck⟩

/-- A failure for the parent turns into `true`, and that into the next failure. -/
theorem Ends.child {b : Option ℕ × σ} {r : Bool × σ} (h : Ends fs (Path.parentPath path) b r)
    (hne : Path.parentPath path ≠ []) :
    Ends fs path (buildLast fs is_common_dir b path)
      (if r.1 then createDirectory fs is_common_dir r.2 path else (true, r.2)) := by
  obtain ⟨left, s⟩ := b
  obtain ⟨flag, s'⟩ := r
  obtain rfl : s' = s := h.state
  cases left with
  | none =>
    obtain rfl : flag = true := (h.made rfl).1
    exact createDirectory_ends is_common_dir s' path
  | some k =>
    obtain ⟨hflag, hstuck⟩ := h.failed k rfl
    have hchild := hstuck.child hne
    have hresult : (if flag then createDirectory fs is_common_dir s' path else (true, s')) =
        (!flag, s') := by
      cases flag with
      | true => exact hchild.createDirectory
      | false => rfl
    dsimp only [buildLast]
    rw [hresult]
    refine ⟨rfl, fun hnone ↦ ?_, fun j hj ↦ ?_⟩
    · cases hnone
    · obtain rfl : k + 1 = j := Option.some.inj hj
      refine ⟨?_, hchild⟩
      rw [Nat.even_add_one, not_not, Bool.not_eq_true', ← Bool.not_eq_true, hflag, not_not]

theorem parent_lt (hroot : fs.isDirectory s ['/']) (hdir : ¬fs.isDirectory s path)
    (hne : Path.parentPath path ≠ []) : (Path.parentPath path).length < path.length :=
  parentPath_length (fun h ↦ hdir (by rwa [h])) hne

theorem createDirectories_ends (is_common_dir : Bool) (hroot : fs.isDirectory s ['/']) {fuel : ℕ}
    (hfuel : path.length < fuel) :
    ∃ r, createDirectories fs is_common_dir fuel s path = some r ∧
      Ends fs path (build fs is_common_dir s (missing fs s fuel path)) r := by
  induction fuel generalizing path with
  | zero => omega
  | succ fuel ih =>
    rw [createDirectories, missing]
    by_cases hdir : fs.isDirectory s path
    · rw [if_pos hdir, if_pos hdir]
      refine ⟨_, rfl, rfl, fun _ ↦ ⟨rfl, hdir⟩, fun k hk ↦ ?_⟩
      cases hk
    rw [if_neg hdir, if_neg hdir]
    by_cases hparent : Path.parentPath path ≠ []
    · rw [if_pos hparent, if_pos hparent, build_append]
      have hlength := parent_lt hroot hdir hparent
      obtain ⟨r, hcall, hends⟩ := ih (show (Path.parentPath path).length < fuel by omega)
      rw [hcall]
      exact ⟨_, rfl, hends.child hparent⟩
    · rw [if_neg hparent, if_neg hparent, ← List.nil_append [path], build_append]
      exact ⟨_, rfl, createDirectory_ends is_common_dir s path⟩

theorem missing_fuel (hroot : fs.isDirectory s ['/']) {fuel fuel' : ℕ} (hfuel : path.length < fuel)
    (hfuel' : path.length < fuel') : missing fs s fuel path = missing fs s fuel' path := by
  induction fuel generalizing path fuel' with
  | zero => omega
  | succ fuel ih =>
    obtain ⟨fuel', rfl⟩ := Nat.exists_eq_succ_of_ne_zero (by omega : fuel' ≠ 0)
    rw [missing, missing]
    by_cases hdir : fs.isDirectory s path
    · rw [if_pos hdir, if_pos hdir]
    rw [if_neg hdir, if_neg hdir]
    by_cases hparent : Path.parentPath path ≠ []
    · have hlength := parent_lt hroot hdir hparent
      rw [if_pos hparent, if_pos hparent, ih (by omega) (show _ < fuel' by omega)]
    · rw [if_neg hparent, if_neg hparent]

/-- `CreateDirectories` ends, and its `true` can be trusted exactly when no missing directory fails
to be made, or the first one that does lies an even number of levels above `path`. -/
theorem createDirectories_truthful_iff (fs : FileSystem σ) (is_common_dir : Bool) (s : σ)
    (path : Str) (hroot : fs.isDirectory s ['/']) :
    ∃ r, (∀ fuel > path.length, createDirectories fs is_common_dir fuel s path = some r) ∧
      ((r.1 = true → fs.isDirectory r.2 path) ↔
        ∀ k, (build fs is_common_dir s (missing fs s (path.length + 1) path)).1 = some k →
          Even k) := by
  obtain ⟨r, -, hends⟩ := createDirectories_ends is_common_dir hroot
    path.length.lt_succ_self
  refine ⟨r, fun fuel hfuel ↦ ?_, hends.trusted_iff⟩
  obtain ⟨r', hcall', hends'⟩ := createDirectories_ends is_common_dir hroot hfuel
  rw [missing_fuel hroot hfuel path.length.lt_succ_self] at hends'
  rw [hcall', hends'.unique hends]

end Outcome

/-- A read-only file system that holds its root and nothing else. -/
def readOnly : FileSystem Unit where
  stat _ path := if path = ['/'] then some true else none
  mkdir _ _ := none
  chmod s _ := some s
  stat_parent _ path hstat _ := by
    obtain rfl : path = ['/'] := by
      by_contra hpath
      rw [if_neg hpath] at hstat
      cases hstat
    rfl
  mkdir_stat _ _ _ hmkdir := by cases hmkdir
  mkdir_parent _ _ _ hmkdir := by cases hmkdir
  chmod_mkdir _ _ _ hmkdir := by cases hmkdir
  chmod_stat _ _ _ _ _ := rfl

theorem createDirectories_truthful_iff_readOnly :
    ∃ r, (∀ fuel > 4, createDirectories readOnly false fuel () ['/', 'a', '/', 'b'] = some r) ∧
      ((r.1 = true → readOnly.isDirectory r.2 ['/', 'a', '/', 'b']) ↔
        ∀ k, (build readOnly false () (missing readOnly () 5 ['/', 'a', '/', 'b'])).1 = some k →
          Even k) :=
  createDirectories_truthful_iff readOnly false () ['/', 'a', '/', 'b'] rfl

/-- On it `/a/b` is reported as made, although not even `/a` can be. -/
theorem readOnly_reports_success :
    ¬∀ (σ : Type) (fs : FileSystem σ) (s : σ) (path : Str), fs.isDirectory s ['/'] →
      ∃ r, (∀ fuel > path.length, createDirectories fs false fuel s path = some r) ∧
        (r.1 = true → fs.isDirectory r.2 path) := by
  intro h
  obtain ⟨r, hcall, htrue⟩ := h Unit readOnly () ['/', 'a', '/', 'b'] rfl
  have hrun : createDirectories readOnly false 5 () ['/', 'a', '/', 'b'] = some (true, ()) := by
    decide
  obtain rfl := Option.some.inj ((hcall 5 (by decide)).symm.trans hrun)
  exact absurd (htrue rfl) (by decide)

end ShannonNet.Utils
