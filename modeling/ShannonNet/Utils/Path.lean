import Mathlib.Data.List.Basic

namespace ShannonNet.Utils

/-- `std::string` where the code looks inside: paths and file names. -/
abbrev Str := List Char

/-- `std::string::find_last_of(c)`; `none` is `npos`. -/
def findLastOf (c : Char) : Str → Option ℕ
  | [] => none
  | x :: s =>
    match findLastOf c s with
    | some k => some (k + 1)
    | none => if x = c then some 0 else none

namespace Path

def join (path p : Str) : Str := path ++ '/' :: p

def extension (path : Str) : Str :=
  match findLastOf '.' path with
  | some found => path.drop found
  | none => []

def basename (path : Str) : Str :=
  match findLastOf '/' path with
  | some found => path.drop (found + 1)
  | none => path

def stem (basename : Str) : Str :=
  match findLastOf '.' basename with
  | some found => basename.take found
  | none => basename

def fileName (path : Str) : Str :=
  match findLastOf '/' path with
  | some found => stem (path.drop (found + 1))
  | none => path

end Path

theorem findLastOf_eq_none {c : Char} {s : Str} (h : c ∉ s) : findLastOf c s = none := by
  induction s with
  | nil => rfl
  | cons x s ih =>
    obtain ⟨hx, hs⟩ := List.ne_and_not_mem_of_not_mem_cons h
    simp only [findLastOf, ih hs]
    exact if_neg (Ne.symm hx)

theorem findLastOf_append_of_some {c : Char} {s t : Str} {k : ℕ} (h : findLastOf c t = some k) :
    findLastOf c (s ++ t) = some (s.length + k) := by
  induction s with
  | nil => simpa using h
  | cons x s ih =>
    simp only [List.cons_append, findLastOf, ih, List.length_cons, Option.some_inj]
    omega

theorem findLastOf_append_of_none {c : Char} {s t : Str} (h : findLastOf c t = none) :
    findLastOf c (s ++ t) = findLastOf c s := by
  induction s with
  | nil => exact h
  | cons x s ih => simp only [List.cons_append, findLastOf, ih]

theorem findLastOf_lt {c : Char} {s : Str} {k : ℕ} (h : findLastOf c s = some k) :
    k < s.length := by
  induction s generalizing k with
  | nil => simp [findLastOf] at h
  | cons x s ih =>
    simp only [findLastOf] at h
    cases hs : findLastOf c s with
    | some j =>
      rw [hs] at h
      have hj := ih hs
      have hk := Option.some.inj h
      simp only [List.length_cons]
      omega
    | none =>
      rw [hs] at h
      split_ifs at h
      have hk := Option.some.inj h
      simp [← hk]

namespace Path

theorem findLastOf_join {dir name : Str} (h : '/' ∉ name) :
    findLastOf '/' (join dir name) = some dir.length := by
  have hn : findLastOf '/' ('/' :: name) = some 0 := by
    simp [findLastOf, findLastOf_eq_none h]
  exact findLastOf_append_of_some hn

theorem basename_join {dir name : Str} (h : '/' ∉ name) : basename (join dir name) = name := by
  rw [basename, findLastOf_join h]
  simp [join]

theorem fileName_join {dir name : Str} (h : '/' ∉ name) :
    fileName (join dir name) = stem name := by
  rw [fileName, findLastOf_join h]
  simp [join]

/-- Nor does the test of its extension: a dot of the directory cannot begin `.bin`. -/
theorem extension_join_iff {dir name ext : Str} (h : '/' ∉ ext) (hne : ext ≠ []) :
    extension (join dir name) = ext ↔ extension name = ext := by
  unfold extension
  cases hn : findLastOf '.' name with
  | some k =>
    have hd : findLastOf '.' ('/' :: name) = some (k + 1) := by simp [findLastOf, hn]
    have hj : findLastOf '.' (join dir name) = some (dir.length + (k + 1)) :=
      findLastOf_append_of_some hd
    rw [hj, join]
    simp
  | none =>
    have hd : findLastOf '.' ('/' :: name) = none := by simp [findLastOf, hn]
    have hj : findLastOf '.' (join dir name) = findLastOf '.' dir := findLastOf_append_of_none hd
    rw [hj]
    cases hdir : findLastOf '.' dir with
    | some k =>
      refine ⟨?_, fun he ↦ absurd he.symm hne⟩
      intro he
      have hk := findLastOf_lt hdir
      refine absurd ?_ h
      simp only [← he, join]
      rw [List.drop_append_of_le_length (Nat.le_of_lt hk)]
      simp
    | none => exact Iff.rfl

end Path
end ShannonNet.Utils
