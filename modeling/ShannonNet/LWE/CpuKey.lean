import ShannonNet.Config
import ShannonNet.LWE.Cpu
import ShannonNet.Library.Buffer

namespace ShannonNet.LWE.Cpu

open Library.Bitset Library.Buffer

variable (cfg : Config)

/-- `LWE<uint16_t>::generateSecretA`, `none` for a file that does not open. It asks for
`M * N * sizeof(T)` bytes. -/
def generateSecretA (secretFile : Option Bytes) : List UInt16 :=
  match secretFile with
  | none => []
  | some file =>
    let out := load (cfg.m * cfg.m * 2) file 0
    List.ofFn fun k : Fin (cfg.m * cfg.m) ↦ view out (cfg.m * cfg.m) k

/-- `Eigen::Map<MatrixXT> A(vec_A.data(), M, N)`; `MatrixXT` is row-major. -/
def mapA (vec_A : List UInt16) : Matrix (Fin cfg.m) (Fin cfg.m) UInt16 :=
  fun i j ↦ vec_A.getD (i * cfg.m + j) 0

variable {cfg} {file file' : Bytes}

theorem generateSecretA_getD (file : Bytes) {k : ℕ} (hk : k < cfg.m * cfg.m) :
    (generateSecretA cfg (some file)).getD k 0 =
      ((load (cfg.m * cfg.m * 2) file 0).getD (2 * k) 0).toUInt16 +
        (((load (cfg.m * cfg.m * 2) file 0).getD (2 * k + 1) 0).toUInt16 <<< 8) := by
  rw [generateSecretA, List.getD_eq_getElem _ _ (by rwa [List.length_ofFn]), List.getElem_ofFn,
    view]

theorem load_double (hsize : file.length = cfg.secretFileSize) :
    load (cfg.m * cfg.m * 2) file 0 = file ++ zeros (cfg.m * cfg.m) := by
  have hread : readAt file 0 (cfg.m * cfg.m * 2) = file := by
    rw [readAt, List.drop_zero, List.take_of_length_le]
    rw [hsize, Config.secretFileSize]
    omega
  have h := overlay_append_zeros [] file (cfg.m * cfg.m * 2)
  rw [List.nil_append, List.nil_append, List.length_nil, hsize, Config.secretFileSize] at h
  rw [load, hread, h]
  congr 2
  omega

/-- The file ends in the middle of the matrix. -/
theorem entry_of_lt (hsize : file.length = cfg.secretFileSize) {i j : Fin cfg.m}
    (hi : i < cfg.m / 2) :
    2 * (i * cfg.m + j) + 1 < cfg.secretFileSize ∧
      mapA cfg (generateSecretA cfg (some file)) i j =
        (file.getD (2 * (i * cfg.m + j)) 0).toUInt16 +
          ((file.getD (2 * (i * cfg.m + j) + 1) 0).toUInt16 <<< 8) := by
  have hm : cfg.m = 2 * (cfg.m / 2) := by
    unfold Config.m
    omega
  have hrow : (2 * i + 2) * cfg.m ≤ cfg.m * cfg.m := Nat.mul_le_mul_right _ (by omega)
  have hk : 2 * (i * cfg.m + j) + 1 < cfg.secretFileSize := by
    have hj := j.isLt
    rw [Nat.add_mul, Nat.mul_assoc] at hrow
    unfold Config.secretFileSize
    omega
  have hlt : (i : ℕ) * cfg.m + j < cfg.m * cfg.m := by
    unfold Config.secretFileSize at hk
    omega
  refine ⟨hk, ?_⟩
  rw [mapA, generateSecretA_getD file hlt, load_double hsize,
    List.getD_append _ _ _ _ (by omega), List.getD_append _ _ _ _ (by omega)]

theorem entry_of_le (hsize : file.length = cfg.secretFileSize) {i j : Fin cfg.m}
    (hi : cfg.m / 2 ≤ i) :
    mapA cfg (generateSecretA cfg (some file)) i j = 0 := by
  have hm : cfg.m = 2 * (cfg.m / 2) := by
    unfold Config.m
    omega
  have hrow : cfg.m * cfg.m ≤ 2 * i * cfg.m := Nat.mul_le_mul_right _ (by omega)
  have hlast : (i + 1) * cfg.m ≤ cfg.m * cfg.m := Nat.mul_le_mul_right _ i.isLt
  rw [Nat.mul_assoc] at hrow
  rw [Nat.succ_mul] at hlast
  have hk : file.length ≤ 2 * (i * cfg.m + j) := by
    rw [hsize, Config.secretFileSize]
    omega
  rw [mapA, generateSecretA_getD file (by omega), load_double hsize,
    List.getD_append_right _ _ _ _ hk, List.getD_append_right _ _ _ _ (by omega), zeros_getD,
    zeros_getD]
  rfl

theorem product_of_row_zero {M N : ℕ} {A : Matrix (Fin M) (Fin N) UInt16} {i : Fin M}
    (hA : ∀ j, A i j = 0) (s : Fin N → UInt16) : product A s i = 0 := by
  rw [product]
  generalize List.finRange N = js
  induction js with
  | nil => rfl
  | cons j js ih =>
    rw [List.foldl_cons, hA, UInt16.zero_mul, UInt16.add_zero]
    exact ih

/-- Where a row of `A` is zero, the entry of `b` carries the message bit under the noise alone. -/
theorem encrypt_of_row_zero {M N Q : ℕ} {A : Matrix (Fin M) (Fin N) UInt16} {i : Fin M}
    (hA : ∀ j, A i j = 0) {inMessage : Bytes} {s : Secret Q false N} {e : Secret Q true M}
    {out : Bytes × Bytes} (h : encrypt Q inMessage A s e = some out) :
    view out.2 M i = mod Q (e.val i + (message2bin inMessage).getD i 0 * halfQ Q) := by
  unfold encrypt at h
  split_ifs at h
  obtain rfl := Option.some.inj h
  have hmod : mod Q 0 = 0 := by
    rw [mod, UInt16.toNat_zero, Nat.zero_mod]
    rfl
  rw [view_image, product_of_row_zero hA, hmod, UInt16.zero_add]

theorem entry_keyed {i j : Fin cfg.m} (hi : i < cfg.m / 2) :
    ∃ file file' : Bytes, file.length = cfg.secretFileSize ∧ file'.length = cfg.secretFileSize ∧
      mapA cfg (generateSecretA cfg (some file)) i j ≠
        mapA cfg (generateSecretA cfg (some file')) i j := by
  refine ⟨zeros cfg.secretFileSize, spike cfg.secretFileSize (2 * (i * cfg.m + j)),
    zeros_length _, spike_length _ _, ?_⟩
  obtain ⟨hk, hspike⟩ := entry_of_lt (j := j) (spike_length _ (2 * (i * cfg.m + j))) hi
  have hpos : 2 * (i * cfg.m + j) < cfg.secretFileSize := by omega
  rw [hspike, (entry_of_lt (zeros_length _) hi).2, zeros_getD, zeros_getD, spike_getD hpos,
    spike_getD hpos, if_pos rfl, if_neg (by omega)]
  decide

/-- The file keys the first half of the matrix: a row of the second half is zero for every file,
and its entry of `b` shows the message bit. -/
theorem keyed_row_iff (cfg : Config) (i : Fin cfg.m) :
    (∀ j, (∃ file file' : Bytes, file.length = cfg.secretFileSize ∧
        file'.length = cfg.secretFileSize ∧
        mapA cfg (generateSecretA cfg (some file)) i j ≠
          mapA cfg (generateSecretA cfg (some file')) i j) ↔ i < cfg.m / 2) ∧
      ((∀ file file' : Bytes, file.length = cfg.secretFileSize →
        file'.length = cfg.secretFileSize →
        mapA cfg (generateSecretA cfg (some file)) i =
          mapA cfg (generateSecretA cfg (some file')) i) ↔ cfg.m / 2 ≤ i) ∧
      (cfg.m / 2 ≤ i → ∀ file : Bytes, file.length = cfg.secretFileSize →
        ∀ inMessage s e out,
          encrypt cfg.q inMessage (mapA cfg (generateSecretA cfg (some file))) s e = some out →
          view out.2 cfg.m i =
            mod cfg.q (e.val i + (message2bin inMessage).getD i 0 * halfQ cfg.q)) := by
  refine ⟨fun j ↦ ⟨?_, entry_keyed⟩, ⟨?_, ?_⟩, ?_⟩
  · rintro ⟨file, file', hsize, hsize', hne⟩
    by_contra hi
    exact hne (by rw [entry_of_le hsize (by omega), entry_of_le hsize' (by omega)])
  · intro h
    by_contra hi
    obtain ⟨file, file', hsize, hsize', hne⟩ := entry_keyed (i := i) (j := i) (by omega)
    exact hne (congrFun (h file file' hsize hsize') i)
  · intro hi file file' hsize hsize'
    funext j
    rw [entry_of_le hsize hi, entry_of_le hsize' hi]
  · intro hi file hsize inMessage s e out h
    exact encrypt_of_row_zero (fun j ↦ entry_of_le hsize hi) h

theorem last_row_unkeyed :
    ¬∀ i j : Fin Config.release.m, ∃ file file' : Bytes,
      file.length = Config.release.secretFileSize ∧
      file'.length = Config.release.secretFileSize ∧
        mapA Config.release (generateSecretA Config.release (some file)) i j ≠
          mapA Config.release (generateSecretA Config.release (some file')) i j := by
  intro h
  obtain ⟨file, file', hsize, hsize', hne⟩ := h ⟨8191, by decide⟩ ⟨0, by decide⟩
  exact hne (by rw [entry_of_le hsize (by decide), entry_of_le hsize' (by decide)])

end ShannonNet.LWE.Cpu
