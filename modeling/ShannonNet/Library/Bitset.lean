import Mathlib.Data.Nat.Bitwise
import Mathlib.Data.List.Nodup
import Mathlib.Tactic.IntervalCases

namespace ShannonNet.Library.Bitset

abbrev Bytes := List UInt8

/-- `bitset<8>(c)[i]`: the bit of weight `2 ^ i`. -/
def bit (c : UInt8) (i : ℕ) : Bool := c.toNat.testBit i

def bits (c : UInt8) : List Bool := (List.range 8).map fun i ↦ bit c (7 - i)

def digit (b : Bool) : Char := if b then '1' else '0'

def digits (c : UInt8) : List Char := (bits c).map digit

/-- `bitset<8>(str)`: the first character is the most significant bit. -/
def ofString (str : List Char) : UInt8 :=
  str.foldl (fun acc ch ↦ 2 * acc + if ch = '1' then 1 else 0) 0

theorem bits_length (c : UInt8) : (bits c).length = 8 := rfl

theorem bits_getElem (c : UInt8) (i : ℕ) (hi : i < (bits c).length) :
    (bits c)[i] = bit c (7 - i) := by
  simp [bits]

theorem bit_xor (a b : UInt8) (i : ℕ) : bit (a ^^^ b) i = (bit a i ^^ bit b i) := by
  simp [bit]

theorem bit_zero (i : ℕ) : bit 0 i = false := by
  simp [bit]

theorem ofString_digits (c : UInt8) : ofString (digits c) = c := by
  have h : ∀ n : Fin 256, ofString (digits (UInt8.ofNat n)) = UInt8.ofNat n := by decide +kernel
  simpa using h ⟨c.toNat, c.toNat_lt⟩

theorem bits_ofString (b₇ b₆ b₅ b₄ b₃ b₂ b₁ b₀ : Bool) :
    bits (ofString ([b₇, b₆, b₅, b₄, b₃, b₂, b₁, b₀].map digit)) =
      [b₇, b₆, b₅, b₄, b₃, b₂, b₁, b₀] := by
  revert b₇ b₆ b₅ b₄ b₃ b₂ b₁ b₀
  decide +kernel

/-- Eight bits at a time, most significant first; an incomplete tail is dropped. -/
def pack : List Bool → Bytes
  | b₇ :: b₆ :: b₅ :: b₄ :: b₃ :: b₂ :: b₁ :: b₀ :: rest =>
    ofString ([b₇, b₆, b₅, b₄, b₃, b₂, b₁, b₀].map digit) :: pack rest
  | _ => []

def unpack (bytes : Bytes) : List Bool := bytes.flatMap bits

theorem unpack_cons (c : UInt8) (bytes : Bytes) : unpack (c :: bytes) = bits c ++ unpack bytes :=
  rfl

theorem unpack_length (bytes : Bytes) : (unpack bytes).length = 8 * bytes.length := by
  induction bytes with
  | nil => rfl
  | cons c bytes ih =>
    simp only [unpack, List.flatMap_cons, List.length_append, bits_length, List.length_cons] at ih ⊢
    omega

theorem pack_bits_append (c : UInt8) (l : List Bool) : pack (bits c ++ l) = c :: pack l := by
  have h := ofString_digits c
  simp only [bits, digits, List.range, List.range.loop, List.map_cons, List.map_nil] at h ⊢
  simp only [List.cons_append, List.nil_append, pack, List.map_cons, List.map_nil, h]

theorem pack_unpack (bytes : Bytes) : pack (unpack bytes) = bytes := by
  induction bytes with
  | nil => rfl
  | cons c bytes ih =>
    simp only [unpack, List.flatMap_cons, pack_bits_append] at ih ⊢
    rw [ih]

theorem unpack_pack (l : List Bool) (h : 8 ∣ l.length) : unpack (pack l) = l := by
  induction l using pack.induct with
  | case1 b₇ b₆ b₅ b₄ b₃ b₂ b₁ b₀ rest ih =>
    have hrest : 8 ∣ rest.length := by
      simp only [List.length_cons] at h
      omega
    simp only [pack, unpack, List.flatMap_cons, bits_ofString] at ih ⊢
    rw [ih hrest]
    rfl
  | case2 l hl =>
    match l, hl, h with
    | [], _, _ => rfl
    | [_], _, h | [_, _], _, h | [_, _, _], _, h | [_, _, _, _], _, h | [_, _, _, _, _], _, h
    | [_, _, _, _, _, _], _, h | [_, _, _, _, _, _, _], _, h =>
      simp only [List.length_cons, List.length_nil] at h
      omega
    | b₇ :: b₆ :: b₅ :: b₄ :: b₃ :: b₂ :: b₁ :: b₀ :: rest, hl, _ =>
      exact absurd rfl (hl b₇ b₆ b₅ b₄ b₃ b₂ b₁ b₀ rest)

theorem pack_length (l : List Bool) (h : 8 ∣ l.length) : 8 * (pack l).length = l.length := by
  rw [← unpack_length, unpack_pack l h]

def bitAt (bytes : Bytes) (pos : ℕ) : Bool := bit (bytes.getD (pos / 8) 0) (7 - pos % 8)

theorem unpack_getElem (bytes : Bytes) (pos : ℕ) (h : pos < (unpack bytes).length) :
    (unpack bytes)[pos] = bitAt bytes pos := by
  induction bytes generalizing pos with
  | nil => simp [unpack] at h
  | cons c bytes ih =>
    have he : unpack (c :: bytes) = bits c ++ unpack bytes := by simp [unpack]
    simp only [he]
    by_cases hp : pos < 8
    · rw [List.getElem_append_left (by simpa [bits_length] using hp), bits_getElem]
      simp [bitAt, Nat.div_eq_of_lt hp, Nat.mod_eq_of_lt hp]
    · rw [he, List.length_append, bits_length] at h
      rw [List.getElem_append_right (by simpa [bits_length] using hp)]
      simp only [bits_length]
      rw [ih (pos - 8) (by omega)]
      have hd : pos / 8 = (pos - 8) / 8 + 1 := by omega
      have hm : pos % 8 = (pos - 8) % 8 := by omega
      simp only [bitAt, hd, hm, List.getD_cons_succ]

theorem bitAt_pack (l : List Bool) (h : 8 ∣ l.length) (pos : ℕ) (hp : pos < l.length) :
    bitAt (pack l) pos = l[pos] := by
  have hl : pos < (unpack (pack l)).length := by rwa [unpack_pack l h]
  rw [← unpack_getElem (pack l) pos hl]
  simp only [unpack_pack l h]

theorem ext_bitAt {a b : Bytes} (hlen : a.length = b.length)
    (h : ∀ pos < 8 * a.length, bitAt a pos = bitAt b pos) : a = b := by
  rw [← pack_unpack a, ← pack_unpack b]
  congr 1
  apply List.ext_getElem
  · rw [unpack_length, unpack_length, hlen]
  · intro pos hp hp'
    rw [unpack_getElem, unpack_getElem]
    exact h pos (by rwa [unpack_length] at hp)

/-- The loop that collects digits in a string and emits a byte for every eight of them. -/
structure Packer where
  cur : List Char := []
  out : Bytes := []

def Packer.push (p : Packer) (str : List Char) : Packer :=
  let cur := p.cur ++ str
  if cur.length = 8 then ⟨[], p.out ++ [ofString cur]⟩ else ⟨cur, p.out⟩

theorem Packer.push_eight (a b c d e f g h : Char) (out : Bytes) :
    [[a], [b], [c], [d], [e], [f], [g], [h]].foldl Packer.push ⟨[], out⟩ =
      ⟨[], out ++ [ofString [a, b, c, d, e, f, g, h]]⟩ := by
  simp [Packer.push]

theorem Packer.foldl_push_bits (c : UInt8) (out : Bytes) :
    ((bits c).map fun b ↦ [digit b]).foldl Packer.push ⟨[], out⟩ = ⟨[], out ++ [c]⟩ := by
  have h := ofString_digits c
  simp only [bits, digits, List.range, List.range.loop, List.map_cons, List.map_nil] at h ⊢
  rw [Packer.push_eight, h]

theorem Packer.foldl_push (l : List Bool) (out : Bytes) (h : 8 ∣ l.length) :
    (l.map fun b ↦ [digit b]).foldl Packer.push ⟨[], out⟩ = ⟨[], out ++ pack l⟩ := by
  rw [← unpack_pack l h]
  generalize pack l = bytes
  rw [pack_unpack]
  induction bytes generalizing out with
  | nil => simp [unpack]
  | cons c bytes ih =>
    rw [unpack_cons, List.map_append, List.foldl_append, Packer.foldl_push_bits, ih,
      List.append_assoc, List.singleton_append]

def parity (l : List Bool) : Bool := l.foldl xor false

theorem foldl_xor (l : List Bool) (b : Bool) : l.foldl xor b = (b ^^ parity l) := by
  unfold parity
  induction l generalizing b with
  | nil => simp
  | cons x l ih =>
    rw [List.foldl_cons, List.foldl_cons, ih, ih (false ^^ x)]
    simp

theorem parity_nil : parity [] = false := rfl

theorem parity_cons (b : Bool) (l : List Bool) : parity (b :: l) = (b ^^ parity l) := by
  rw [parity, List.foldl_cons, foldl_xor, Bool.false_xor]

theorem parity_append (l r : List Bool) : parity (l ++ r) = (parity l ^^ parity r) := by
  rw [parity, List.foldl_append, foldl_xor]
  rfl

theorem parity_map_xor {ι : Type} (f g : ι → Bool) (l : List ι) :
    parity (l.map fun i ↦ f i ^^ g i) = (parity (l.map f) ^^ parity (l.map g)) := by
  induction l with
  | nil => rfl
  | cons i l ih =>
    simp only [List.map_cons, parity_cons, ih]
    generalize parity (l.map f) = u, parity (l.map g) = v
    cases f i <;> cases g i <;> simp

theorem parity_perm {l l' : List Bool} (h : l.Perm l') : parity l = parity l' := by
  induction h with
  | nil => rfl
  | cons b _ ih => rw [parity_cons, parity_cons, ih]
  | swap a b l => rw [parity_cons, parity_cons, parity_cons, parity_cons, Bool.xor_left_comm]
  | trans _ _ ih₁ ih₂ => rw [ih₁, ih₂]

theorem parity_map_false {ι : Type} {f : ι → Bool} {l : List ι} (h : ∀ i ∈ l, f i = false) :
    parity (l.map f) = false := by
  induction l with
  | nil => rfl
  | cons i l ih =>
    rw [List.map_cons, parity_cons, h i (by simp), ih fun j hj ↦ h j (by simp [hj])]
    rfl

theorem parity_map_single {ι : Type} [DecidableEq ι] {f : ι → Bool} {l : List ι} (hl : l.Nodup)
    {a : ι} (h : ∀ i ∈ l, i ≠ a → f i = false) :
    parity (l.map f) = if a ∈ l then f a else false := by
  split_ifs with ha
  · rw [parity_perm ((List.perm_cons_erase ha).map f), List.map_cons, parity_cons,
      parity_map_false fun i hi ↦ ?_, Bool.xor_false]
    have hi' := (hl.mem_erase_iff).mp hi
    exact h i hi'.2 hi'.1
  · exact parity_map_false fun i hi ↦ h i hi fun hia ↦ ha (hia ▸ hi)

theorem parity_bits_xor (a b : UInt8) :
    parity (bits (a ^^^ b)) = (parity (bits a) ^^ parity (bits b)) := by
  simp only [bits, bit_xor, parity_map_xor]

end ShannonNet.Library.Bitset
