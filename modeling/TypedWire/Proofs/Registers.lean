import TypedWire.Proofs.LengthPrefix
import TypedWire.Varint.Register

namespace TypedWire.Varint.Register

private theorem toNat_rest (value : BitVec 64) : (value >>> 7).toNat = value.toNat / 128 := by
  rw [BitVec.toNat_ushiftRight, Nat.shiftRight_eq_div_pow]

private theorem and_mask (n : Nat) : n &&& 127 = n % 128 := Nat.and_two_pow_sub_one_eq_mod n 7

theorem toNat_and_mask (byte : Byte) : (byte &&& 0x7F).toNat = byte.toNat % 128 := by
  rw [BitVec.toNat_and]
  exact and_mask byte.toNat

private theorem group_eq (value : BitVec 64) :
    (value &&& 0x7F).setWidth 8 = BitVec.ofNat 8 (value.toNat % 128) := by
  apply BitVec.eq_of_toNat_eq
  rw [BitVec.toNat_setWidth, BitVec.toNat_ofNat, BitVec.toNat_and]
  exact congrArg (· % 256) (and_mask value.toNat)

private theorem group_high (value : BitVec 64) :
    BitVec.ofNat 8 (value.toNat % 128) ||| 0x80 = BitVec.ofNat 8 (value.toNat % 128 + 128) := by
  have small : value.toNat % 128 < 128 := Nat.mod_lt _ (by decide)
  have apart : value.toNat % 128 ||| 128 = value.toNat % 128 + 128 := by
    rw [Nat.or_comm, Nat.add_comm]
    exact (Nat.two_pow_add_eq_or_of_lt (i := 7) small 1).symm
  have fits : value.toNat % 128 + 128 < 2 ^ 8 := by omega
  apply BitVec.eq_of_toNat_eq
  rw [BitVec.toNat_or, BitVec.toNat_ofNat, BitVec.toNat_ofNat, Nat.mod_eq_of_lt fits,
    Nat.mod_eq_of_lt (show value.toNat % 128 < 2 ^ 8 by omega)]
  exact apart

private theorem toNat_group (byte : Byte) : ((byte &&& 0x7F).setWidth 64).toNat = byte.toNat % 128 := by
  have small := byte.isLt
  rw [BitVec.toNat_setWidth, toNat_and_mask, Nat.mod_eq_of_lt (by omega)]

theorem high_bit_iff (byte : Byte) : byte &&& 0x80 = 0 ↔ byte.toNat < 128 := by
  revert byte
  decide

/-- A group that the register has room for is added by or-ing it in. -/
private theorem toNat_join {value : BitVec 64} {group : BitVec 64} {shift : Nat} (below : value.toNat < 2 ^ shift)
    (room : group.toNat * 2 ^ shift < 2 ^ 64) :
    (value ||| group <<< shift).toNat = value.toNat + group.toNat * 2 ^ shift := by
  rw [BitVec.toNat_or, BitVec.toNat_shiftLeft, Nat.shiftLeft_eq, Nat.mod_eq_of_lt room, Nat.or_comm,
    Nat.mul_comm, ← Nat.two_pow_add_eq_or_of_lt below, Nat.add_comm]

private theorem store_inside (buffer : Buffer) {index : Nat} (byte : Byte) (inside : index < maxLength) :
    ∃ stored, store buffer index byte = some stored ∧
      stored.toList.take (index + 1) = buffer.toList.take index ++ [byte] := by
  refine ⟨buffer.set index byte inside, by rw [store, dif_pos inside], ?_⟩
  have sized : index < (buffer.toList.set index byte).length := by simpa using inside
  rw [Vector.toList_set, List.take_succ_eq_append_getElem sized, List.take_set_of_le (Nat.le_refl index),
    List.getElem_set_self]

/-- A register is shifted out behind what the buffer holds, as long as there is room for its prefix. -/
private theorem encodeFrom_eq (value : BitVec 64) (buffer : Buffer) (used : Nat)
    (room : used + (Varint.encode value.toNat).length ≤ maxLength) :
    ∃ stored, encodeFrom value buffer used = some (stored, used + (Varint.encode value.toNat).length) ∧
      stored.toList.take (used + (Varint.encode value.toNat).length) =
        buffer.toList.take used ++ Varint.encode value.toNat := by
  induction value, buffer, used using encodeFrom.induct with
  | case1 value buffer used rest last =>
    have small : value.toNat < 128 := by
      have zero := congrArg BitVec.toNat last
      rw [toNat_rest] at zero
      have : value.toNat / 128 = 0 := zero
      omega
    rw [encode_of_lt small, List.length_singleton] at room ⊢
    obtain ⟨stored, written, front⟩ := store_inside buffer (BitVec.ofNat 8 value.toNat) room
    refine ⟨stored, ?_, front⟩
    rw [encodeFrom, if_pos last, group_eq, Nat.mod_eq_of_lt small, written]
    rfl
  | case2 value buffer used rest more ih =>
    have large : 128 ≤ value.toNat := by
      refine Nat.le_of_not_lt fun small => more (BitVec.eq_of_toNat_eq ?_)
      refine (toNat_rest value).trans ?_
      exact Nat.div_eq_of_lt small
    have shifted : rest.toNat = value.toNat / 128 := toNat_rest value
    rw [encode_of_ge large, List.length_cons] at room ⊢
    obtain ⟨between, written, front⟩ := store_inside buffer
      (BitVec.ofNat 8 (value.toNat % 128 + 128)) (show used < maxLength by omega)
    rw [shifted] at ih
    obtain ⟨stored, others, front'⟩ := ih between (by omega)
    refine ⟨stored, ?_, ?_⟩
    · rw [encodeFrom, if_neg more, group_eq, group_high, written, Option.bind_some, others]
      congr 2
      omega
    · rw [show used + ((Varint.encode (value.toNat / 128)).length + 1) =
        used + 1 + (Varint.encode (value.toNat / 128)).length by omega, front', front, List.append_assoc]
      rfl

/-- The buffer has room for every prefix, and begins with the one of the number. -/
theorem encode_eq (value : BitVec 64) :
    ∃ buffer, encode value = some (buffer, (Varint.encode value.toNat).length) ∧
      buffer.toList.take (Varint.encode value.toNat).length = Varint.encode value.toNat := by
  have room := length_encode_le_maxLength value.isLt
  obtain ⟨buffer, written, front⟩ := encodeFrom_eq value (Vector.replicate maxLength 0) 0 (by omega)
  rw [Nat.zero_add] at written front
  exact ⟨buffer, written, front⟩

/-- The leading zeros tell how many digits a number has. -/
theorem encodedLength_eq (value : BitVec 64) : encodedLength value = Varint.encodedLength value.toNat := by
  by_cases zero : value = 0
  · rw [zero]
    rfl
  · have nonzero : value.toNat ≠ 0 := fun none => zero (BitVec.eq_of_toNat_eq none)
    have lower := BitVec.two_pow_sub_clz_le_toNat_of_ne_zero (by decide) zero
    have upper := BitVec.toNat_lt_two_pow_sub_clz (x := value)
    have above := (Nat.le_log2 nonzero).mpr lower
    have below := (Nat.log2_lt nonzero).mpr upper
    rw [encodedLength, if_neg zero, Varint.encodedLength, if_neg nonzero]
    omega

private theorem decodeFrom_eq {index : Nat} (value : BitVec 64) (bytes : List Byte)
    (below : index < maxLength → value.toNat < 2 ^ (7 * index)) :
    Varint.decodeFrom index value.toNat bytes =
      (decodeFrom index value bytes).map fun found => (found.1.toNat, found.2) := by
  induction bytes generalizing index value with
  | nil =>
    rw [Varint.decodeFrom, decodeFrom]
    rfl
  | cons byte rest ih =>
    rw [Varint.decodeFrom, decodeFrom]
    by_cases late : maxLength ≤ index
    · simp only [if_pos late]
      rfl
    have early : index < 10 := Nat.lt_of_not_le late
    -- The place of the tenth group is the one where only the lowest bit is left.
    have tenth : 7 * index = 63 ↔ index + 1 = maxLength := by
      change _ ↔ index + 1 = 10
      omega
    have wide : (1 : BitVec 64) < (byte &&& 0x7F).setWidth 64 ↔ 1 < byte.toNat % 128 := by
      rw [BitVec.lt_def, toNat_group]
      rfl
    simp only [if_neg late, tenth, wide, high_bit_iff]
    by_cases refused : index + 1 = maxLength ∧ 1 < byte.toNat % 128
    · rw [if_pos refused, if_pos refused]
      rfl
    have small : byte.toNat % 128 < 128 := Nat.mod_lt _ (by decide)
    have room : ((byte &&& 0x7F).setWidth 64).toNat * 2 ^ (7 * index) < 2 ^ 64 := by
      rwa [toNat_group, room_iff early small]
    have joined := toNat_join (below early) room
    rw [toNat_group] at joined
    rw [if_neg refused, if_neg refused]
    by_cases last : byte.toNat < 128
    · rw [if_pos last, if_pos last, ← joined]
      rfl
    · rw [if_neg last, if_neg last, ← joined]
      refine ih _ fun _ => ?_
      rw [joined]
      calc
        value.toNat + byte.toNat % 128 * 2 ^ (7 * index)
          < 2 ^ (7 * index) + byte.toNat % 128 * 2 ^ (7 * index) := Nat.add_lt_add_right (below early) _
        _ = (byte.toNat % 128 + 1) * 2 ^ (7 * index) := by rw [Nat.add_mul, Nat.one_mul, Nat.add_comm]
        _ ≤ 128 * 2 ^ (7 * index) := Nat.mul_le_mul_right _ small
        _ = 2 ^ (7 * (index + 1)) := (shift_succ index).symm

/-- Reading into a register and adding up the groups find the same number, or the same fault. -/
theorem decode_eq (bytes : List Byte) :
    Varint.decode bytes = (decode bytes).map fun found => (found.1.toNat, found.2) :=
  decodeFrom_eq 0 bytes fun _ => Nat.one_pos

end TypedWire.Varint.Register
