import ShannonNet.Generator.Key

namespace ShannonNet.Generator

open Library.Bitset Library.Buffer

theorem parity_bits_foldl (str : Bytes) (acc : UInt8) :
    parity (bits (str.foldl (fun acc c ↦ acc ^^^ c) acc)) =
      (parity (bits acc) ^^ parity (unpack str)) := by
  induction str generalizing acc with
  | nil => simp [unpack, parity_nil]
  | cons c str ih =>
    rw [List.foldl_cons, ih, parity_bits_xor, Bool.xor_assoc, unpack_cons, parity_append]

theorem foldl_digits (l : List Bool) (b : Bool) :
    (l.map digit).foldl (fun acc cc ↦ acc ^^ cc.toNat.testBit 0) b = l.foldl xor b := by
  induction l generalizing b with
  | nil => rfl
  | cons x l ih =>
    have hx : (digit x).toNat.testBit 0 = x := by cases x <;> rfl
    rw [List.map_cons, List.foldl_cons, List.foldl_cons, ih, hx]

theorem windowDigit_eq (str : Bytes) : windowDigit str = [digit (parity (unpack str))] := by
  have h := parity_bits_foldl str 0
  have h0 : parity (bits 0) = false := rfl
  rw [h0, Bool.false_xor] at h
  rw [windowDigit, digits, foldl_digits, ← parity, h]

/-- The counter of `processTmpSecret` cuts the characters exactly where their number reaches
`BIT`, also when it wraps. -/
theorem TmpLoop.step_eq_push (l : TmpLoop) (ch : Char) (h : l.charSS.length = l.num % 8) :
    let p := Packer.push ⟨l.charSS, l.ss⟩ [ch]
    (l.step [ch]).charSS = p.cur ∧ (l.step [ch]).ss = p.out ∧
      (l.step [ch]).charSS.length = (l.step [ch]).num % 8 := by
  have hlen : (l.charSS ++ [ch]).length = l.num % 8 + 1 := by simp [h]
  simp only [TmpLoop.step, Packer.push, hlen]
  by_cases hc : l.num % 8 + 1 = 8
  · rw [if_pos hc, if_pos (by omega)]
    refine ⟨rfl, rfl, ?_⟩
    simp only [List.length_nil]
    omega
  · rw [if_neg hc, if_neg (by omega)]
    refine ⟨rfl, rfl, ?_⟩
    simp only [hlen]
    omega

theorem TmpLoop.foldl_step (bs : List Bool) (l : TmpLoop) (h : l.charSS.length = l.num % 8) :
    ((bs.map fun b ↦ [digit b]).foldl TmpLoop.step l).ss =
      ((bs.map fun b ↦ [digit b]).foldl Packer.push ⟨l.charSS, l.ss⟩).out := by
  induction bs generalizing l with
  | nil => rfl
  | cons b bs ih =>
    obtain ⟨hcur, hout, hinv⟩ := TmpLoop.step_eq_push l (digit b) h
    rw [List.map_cons, List.foldl_cons, List.foldl_cons, ih _ hinv, hcur, hout]

variable (cfg : Config)

def groupBits (bufVec : Bytes) (random : ℕ) : List Bool :=
  (List.range cfg.readNum).map fun i ↦
    parity (unpack (readAt bufVec (windowOffset cfg random i) (readChars cfg)))

theorem groupBits_length (bufVec : Bytes) (random : ℕ) :
    (groupBits cfg bufVec random).length = cfg.readNum := by
  simp [groupBits]

theorem processRandom_eq (bufVec ss : Bytes) (random : ℕ) :
    processRandom cfg bufVec ss random = ss ++ pack (groupBits cfg bufVec random) := by
  have hfold := TmpLoop.foldl_step (groupBits cfg bufVec random) ⟨0, [], ss⟩ rfl
  rw [Packer.foldl_push _ _ (by rw [groupBits_length]; exact cfg.bit_dvd_readNum)] at hfold
  rw [groupBits, List.map_map, List.foldl_map] at hfold
  simpa only [processRandom, groupBits, windowDigit_eq, Function.comp_apply] using hfold

theorem tmpSecret_eq (file : Bytes) (threadIdx : ℕ) (vec : List ℕ) :
    tmpSecret cfg file threadIdx vec = vec.flatMap fun random ↦
      pack (groupBits cfg (load (bufferSize cfg) file (bufferSize cfg * threadIdx)) random) := by
  have h (l : List ℕ) (bufVec ss : Bytes) : l.foldl (processRandom cfg bufVec) ss =
      ss ++ l.flatMap fun random ↦ pack (groupBits cfg bufVec random) := by
    induction l generalizing ss with
    | nil => simp
    | cons random l ih =>
      rw [List.foldl_cons, ih, processRandom_eq, List.append_assoc, List.flatMap_cons]
  rw [tmpSecret, h, List.nil_append]

theorem pack_groupBits_length (bufVec : Bytes) (random : ℕ) :
    (pack (groupBits cfg bufVec random)).length = cfg.readNum / 8 := by
  have hdvd : 8 ∣ (groupBits cfg bufVec random).length := by
    rw [groupBits_length]
    exact cfg.bit_dvd_readNum
  have h := pack_length _ hdvd
  rw [groupBits_length] at h
  omega

theorem tmpSecret_length (file : Bytes) (threadIdx : ℕ) (vec : List ℕ) :
    (tmpSecret cfg file threadIdx vec).length = vec.length * (cfg.readNum / 8) := by
  rw [tmpSecret_eq, flatMap_length _ _ _ (fun r _ ↦ pack_groupBits_length cfg _ r)]

theorem tmpSecret_bitAt (file : Bytes) (threadIdx : ℕ) (vec : List ℕ) (g i : ℕ)
    (hg : g < vec.length) (hi : i < cfg.readNum) :
    bitAt (tmpSecret cfg file threadIdx vec) (8 * (g * (cfg.readNum / 8)) + i) =
      parity (unpack (readAt (load (bufferSize cfg) file (bufferSize cfg * threadIdx))
        (windowOffset cfg vec[g] i) (readChars cfg))) := by
  have hdvd := cfg.bit_dvd_readNum
  rw [tmpSecret_eq, flatMap_bitAt _ _ _ (fun r _ ↦ pack_groupBits_length cfg _ r) g i hg (by omega),
    bitAt_pack _ (by rwa [groupBits_length]) _ (by rwa [groupBits_length])]
  simp [groupBits]

theorem availRead_pos : 0 < availRead cfg := by
  have h := cfg.readLen_lt
  have hpos := cfg.threadNum_pos
  unfold availRead bufferSize readChars
  split_ifs with ht
  · omega
  · rw [show cfg.threadNum = 1 by omega, Nat.div_one] at h
    omega

theorem window_inside (random i : ℕ) :
    windowOffset cfg random i + readChars cfg ≤ bufferSize cfg := by
  have h := Nat.mod_lt (random * i) (availRead_pos cfg)
  unfold windowOffset
  unfold availRead at h ⊢
  omega

end ShannonNet.Generator
