import ShannonNet.Generator.Random
import ShannonNet.Library.Distinct

namespace ShannonNet.Generator

open Library.Distinct

variable {rand : Rand} {size fuel count pos k : ℕ}

/-- The positions `rand()` names, one after the other. -/
def named (rand : Rand) (size : ℕ) (i : ℕ) : ℕ := rand i % size

theorem drawFile_some {r : ℕ × ℕ}
    (h : drawFile rand size (firsts (named rand size) pos) fuel pos = some r) :
    ∃ k, pos ≤ k ∧ firsts (named rand size) k = firsts (named rand size) pos ∧
      named rand size k ∉ firsts (named rand size) pos ∧ r = (named rand size k, k + 1) := by
  induction fuel generalizing pos with
  | zero => cases h
  | succ fuel ih =>
    simp only [drawFile] at h
    split_ifs at h with hmem
    · rw [← firsts_succ_of_mem hmem] at h
      obtain ⟨k, hk, hsame, hnew, rfl⟩ := ih h
      rw [firsts_succ_of_mem hmem] at hsame hnew
      exact ⟨k, Nat.le_of_succ_le hk, hsame, hnew, rfl⟩
    · cases h
      exact ⟨pos, le_rfl, rfl, hmem, rfl⟩

theorem drawFile_of_new (hk : pos ≤ k)
    (hsame : firsts (named rand size) k = firsts (named rand size) pos)
    (hnew : named rand size k ∉ firsts (named rand size) pos) (hfuel : k < pos + fuel) :
    drawFile rand size (firsts (named rand size) pos) fuel pos =
      some (named rand size k, k + 1) := by
  induction fuel generalizing pos with
  | zero => omega
  | succ fuel ih =>
    simp only [drawFile]
    split_ifs with hmem
    · have hlt : pos < k := by
        rcases Nat.lt_or_eq_of_le hk with hlt | rfl
        · exact hlt
        · exact absurd hmem hnew
      rw [← firsts_succ_of_mem hmem] at hsame hnew ⊢
      exact ih hlt hsame hnew (by omega)
    · rcases Nat.lt_or_eq_of_le hk with hlt | rfl
      · have hle : (firsts (named rand size) (pos + 1)).length ≤
            (firsts (named rand size) k).length := firsts_length_mono hlt
        rw [hsame, firsts_succ_of_not_mem hmem, List.length_append, List.length_singleton] at hle
        omega
      · rfl

theorem drawFiles_some {r : List ℕ × ℕ}
    (h : drawFiles rand size fuel count (firsts (named rand size) pos) pos = some r) :
    r.1 = firsts (named rand size) r.2 ∧ pos ≤ r.2 ∧
      r.1.length = (firsts (named rand size) pos).length + count ∧
      ∀ n, pos ≤ n → n < r.2 → (firsts (named rand size) n).length < r.1.length := by
  induction count generalizing pos with
  | zero =>
    cases h
    exact ⟨rfl, le_rfl, rfl, fun n hn hlt ↦ absurd hlt (Nat.not_lt.mpr hn)⟩
  | succ count ih =>
    obtain ⟨d, hd, hrest⟩ := Option.bind_eq_some_iff.mp h
    obtain ⟨k, hk, hsame, hnew, rfl⟩ := drawFile_some hd
    have hgrown : firsts (named rand size) (k + 1) =
        firsts (named rand size) pos ++ [named rand size k] := by
      rw [firsts_succ_of_not_mem (hsame ▸ hnew), hsame]
    rw [← hgrown] at hrest
    obtain ⟨heq, hle, hlen, hmin⟩ := ih hrest
    rw [hgrown, List.length_append, List.length_singleton] at hlen
    refine ⟨heq, by omega, by omega, fun n hn hlt ↦ ?_⟩
    by_cases hnk : n ≤ k
    · have hmono := firsts_length_mono (f := named rand size) hnk
      rw [hsame] at hmono
      omega
    · exact hmin n (by omega) hlt

theorem drawFiles_of_firsts {p : ℕ} (hp : pos ≤ p) (hfuel : p ≤ fuel)
    (hlen : (firsts (named rand size) p).length =
      (firsts (named rand size) pos).length + count)
    (hmin : ∀ n, pos ≤ n → n < p →
      (firsts (named rand size) n).length < (firsts (named rand size) p).length) :
    drawFiles rand size fuel count (firsts (named rand size) pos) pos =
      some (firsts (named rand size) p, p) := by
  induction count generalizing pos with
  | zero =>
    rcases Nat.lt_or_eq_of_le hp with hlt | rfl
    · have hless := hmin pos le_rfl hlt
      omega
    · rfl
  | succ count ih =>
    rcases firsts_cases hp (f := named rand size) with hsame | ⟨k, hk, hlt, hsame, hnew⟩
    · rw [hsame] at hlen
      omega
    · have hgrown : firsts (named rand size) (k + 1) =
          firsts (named rand size) pos ++ [named rand size k] := by
        rw [firsts_succ_of_not_mem (hsame ▸ hnew), hsame]
      rw [drawFiles, drawFile_of_new hk hsame hnew (by omega), Option.bind_some, ← hgrown]
      refine ih hlt ?_ fun n hn ↦ hmin n (by omega)
      rw [hlen, hgrown, List.length_append, List.length_singleton]
      omega

/-- The files are drawn at the first `FILE_NUM` positions that differ, and the loop never ends on a
stream that does not name as many. -/
theorem generateRandomFile_iff (cfg : Config) {α : Type} (rand : Rand) (files : List α) :
    (∀ sel pos, (∃ fuel, generateRandomFile cfg rand fuel files = some (sel, pos)) ↔
      (firsts (named rand files.length) pos).length = cfg.fileNum ∧
        (∀ n < pos, (firsts (named rand files.length) n).length < cfg.fileNum) ∧
        sel = (firsts (named rand files.length) pos).filterMap (files[·]?)) ∧
    ((∃ fuel, (generateRandomFile cfg rand fuel files).isSome) ↔
      ∃ n, cfg.fileNum ≤ (firsts (named rand files.length) n).length) := by
  have hiff (sel : List α) (pos : ℕ) :
      (∃ fuel, generateRandomFile cfg rand fuel files = some (sel, pos)) ↔
      (firsts (named rand files.length) pos).length = cfg.fileNum ∧
        (∀ n < pos, (firsts (named rand files.length) n).length < cfg.fileNum) ∧
        sel = (firsts (named rand files.length) pos).filterMap (files[·]?) := by
    constructor
    · rintro ⟨fuel, h⟩
      obtain ⟨r, hr, heq⟩ := Option.map_eq_some_iff.mp h
      rw [← firsts_zero] at hr
      obtain ⟨hfirsts, -, hlen, hmin⟩ := drawFiles_some hr
      cases heq
      rw [firsts_zero, List.length_nil, Nat.zero_add] at hlen
      rw [← hfirsts]
      exact ⟨hlen, fun n hn ↦ hlen ▸ hmin n (Nat.zero_le n) hn, rfl⟩
    · rintro ⟨hlen, hmin, rfl⟩
      refine ⟨pos, ?_⟩
      have hdraw : drawFiles rand files.length pos cfg.fileNum
          (firsts (named rand files.length) 0) 0 = _ :=
        drawFiles_of_firsts (Nat.zero_le pos) le_rfl (by rw [hlen, firsts_zero]; simp)
          fun n _ hn ↦ hlen ▸ hmin n hn
      rw [firsts_zero] at hdraw
      rw [generateRandomFile, hdraw, Option.map_some]
  refine ⟨hiff, ?_⟩
  constructor
  · rintro ⟨fuel, h⟩
    obtain ⟨⟨sel, pos⟩, h⟩ := Option.isSome_iff_exists.mp h
    exact ⟨pos, ((hiff sel pos).mp ⟨fuel, h⟩).1.ge⟩
  · intro h
    have hmin (n : ℕ) (hn : n < Nat.find h) :
        (firsts (named rand files.length) n).length < cfg.fileNum :=
      Nat.lt_of_not_le (Nat.find_min h hn)
    have hlen : (firsts (named rand files.length) (Nat.find h)).length = cfg.fileNum := by
      refine le_antisymm ?_ (Nat.find_spec h)
      cases hfind : Nat.find h with
      | zero => exact Nat.zero_le _
      | succ n =>
        have hle := firsts_length_succ_le (named rand files.length) n
        have hlt := hmin n (by omega)
        omega
    obtain ⟨fuel, hdraw⟩ := (hiff _ _).mpr ⟨hlen, hmin, rfl⟩
    exact ⟨fuel, by rw [hdraw, Option.isSome_some]⟩

end ShannonNet.Generator
