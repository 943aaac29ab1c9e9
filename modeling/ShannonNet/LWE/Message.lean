import ShannonNet.Library.Bitset

namespace ShannonNet.LWE

open Library.Bitset

/-- `LWE::message2bin`: the bits of every byte, most significant first, as entries of `T`. -/
def message2bin {T : Type} [OfNat T 0] [OfNat T 1] (message : Bytes) : List T :=
  (unpack message).map fun b ↦ if b then 1 else 0

/-- The loop shared by `decrypt` and `decryptGPU`: the decided bits are printed into `cur_str`
and every `BIT` characters become one byte of `out_message`. -/
def bin2message (item : List Bool) : Bytes :=
  ((item.map fun b ↦ [digit b]).foldl Packer.push {}).out

theorem bin2message_eq_pack (item : List Bool) (h : 8 ∣ item.length) :
    bin2message item = pack item := by
  rw [bin2message, Packer.foldl_push item [] h, List.nil_append]

theorem bin2message_unpack (message : Bytes) : bin2message (unpack message) = message := by
  rw [bin2message_eq_pack _ ⟨message.length, unpack_length message⟩, pack_unpack]

theorem message2bin_length {T : Type} [OfNat T 0] [OfNat T 1] (message : Bytes) :
    (message2bin (T := T) message).length = 8 * message.length := by
  rw [message2bin, List.length_map, unpack_length]

theorem message2bin_getD {T : Type} [OfNat T 0] [OfNat T 1] (message : Bytes) {i : ℕ}
    (hi : i < (unpack message).length) :
    (message2bin (T := T) message).getD i 0 = if (unpack message)[i] then 1 else 0 := by
  have hl : i < (message2bin (T := T) message).length := by
    rwa [message2bin_length, ← unpack_length]
  rw [List.getD_eq_getElem _ _ hl]
  simp only [message2bin, List.getElem_map]

theorem bin2message_ofFn {m : ℕ} (message : Bytes) (hm : 8 * message.length = m)
    (item : Fin m → Bool)
    (h : ∀ (i : Fin m) (hi : i.val < (unpack message).length), item i = (unpack message)[i.val]) :
    bin2message (List.ofFn item) = message := by
  have hl : List.ofFn item = unpack message := by
    apply List.ext_getElem
    · rw [List.length_ofFn, unpack_length, hm]
    · intro i hi hj
      rw [List.getElem_ofFn, h]
  rw [hl, bin2message_unpack]

end ShannonNet.LWE
