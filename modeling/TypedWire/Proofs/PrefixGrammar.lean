import TypedWire.Proofs.Registers
import Mathlib.Algebra.BigOperators.Intervals
import Mathlib.Algebra.BigOperators.Ring.Finset
import Mathlib.Data.List.GetD

/-! Reading accepts the groups of a 64-bit number, misses bytes where there are fewer than ten and each
announces another one, and refuses everything else. -/

namespace TypedWire.Varint

/-- The number that the first `count` bytes add up to, as groups of seven bits, the lowest first. -/
def groupSum (bytes : List Byte) (count : Nat) : Nat :=
  ∑ i ∈ Finset.range count, (bytes.getD i 0 &&& 0x7F).toNat * 2 ^ (7 * i)

/-- Of the first `count` bytes only the last has its high bit clear. -/
structure Stops (bytes : List Byte) (count : Nat) : Prop where
  nonempty : 1 ≤ count
  within : count ≤ bytes.length
  announced : ∀ i, i + 1 < count → (bytes.getD i 0).getLsbD 7 = true
  last : (bytes.getD (count - 1) 0).getLsbD 7 = false

/-- The first `count` bytes are the groups of the 64-bit number `n`. -/
structure Grouped (bytes : List Byte) (n count : Nat) : Prop extends Stops bytes count where
  few : count ≤ maxLength
  sum : groupSum bytes count = n
  fits : n < 2 ^ 64

/-- There may be a prefix once more bytes come. -/
structure Unfinished (bytes : List Byte) : Prop where
  few : bytes.length < maxLength
  announced : ∀ byte ∈ bytes, byte.getLsbD 7 = true

theorem getLsbD_seven_iff (byte : Byte) : byte.getLsbD 7 = true ↔ 128 ≤ byte.toNat := by
  have high : byte.getLsbD 7 = byte.msb := rfl
  rw [high, BitVec.msb_eq_decide, decide_eq_true_iff]

theorem getLsbD_seven_eq_false_iff (byte : Byte) : byte.getLsbD 7 = false ↔ byte.toNat < 128 := by
  rw [← Bool.not_eq_true, getLsbD_seven_iff, Nat.not_le]

/-- The first group counts once, and those behind it 128 times as much as on their own. -/
theorem groupSum_cons (byte : Byte) (rest : List Byte) (count : Nat) :
    groupSum (byte :: rest) (count + 1) = byte.toNat % 128 + 128 * groupSum rest count := by
  have later (i : Nat) : (rest.getD i 0 &&& 0x7F).toNat * 2 ^ (7 * (i + 1)) =
      128 * ((rest.getD i 0 &&& 0x7F).toNat * 2 ^ (7 * i)) := by
    rw [Nat.mul_add, Nat.pow_add]
    ring
  rw [groupSum, Finset.sum_range_succ', Nat.add_comm, groupSum, Finset.mul_sum]
  simp only [List.getD_cons_succ, List.getD_cons_zero, later]
  rw [Register.toNat_and_mask, Nat.mul_zero, Nat.pow_zero, Nat.mul_one]

theorem not_stops_nil (count : Nat) : ¬Stops [] count := by
  intro stops
  have := stops.nonempty
  have : count ≤ 0 := stops.within
  omega

theorem stops_cons_iff (byte : Byte) (rest : List Byte) (count : Nat) :
    Stops (byte :: rest) count ↔
      byte.toNat < 128 ∧ count = 1 ∨ 128 ≤ byte.toNat ∧ ∃ fewer, count = fewer + 1 ∧ Stops rest fewer := by
  constructor
  · rintro ⟨nonempty, within, announced, last⟩
    obtain ⟨fewer, rfl⟩ : ∃ fewer, count = fewer + 1 := ⟨count - 1, by omega⟩
    cases fewer with
    | zero => exact .inl ⟨(getLsbD_seven_eq_false_iff byte).mp last, rfl⟩
    | succ fewer =>
      refine .inr ⟨(getLsbD_seven_iff byte).mp (announced 0 (by omega)), fewer + 1, rfl, by omega, ?_, ?_, last⟩
      · exact Nat.le_of_succ_le_succ within
      · exact fun i early => announced (i + 1) (by omega)
  · rintro (⟨low, rfl⟩ | ⟨high, fewer, rfl, nonempty, within, announced, last⟩)
    · exact ⟨Nat.le_refl 1, by simp, fun i early => by omega, (getLsbD_seven_eq_false_iff byte).mpr low⟩
    · refine ⟨by omega, Nat.succ_le_succ within, ?_, ?_⟩
      · rintro (_ | i) early
        · exact (getLsbD_seven_iff byte).mpr high
        · exact announced i (by omega)
      · obtain ⟨fewer, rfl⟩ : ∃ less, fewer = less + 1 := ⟨fewer - 1, by omega⟩
        exact last

/-- The number that is read on from a place is what the groups from there on add, and has 64 bits. -/
private theorem decodeFrom_eq_ok_iff {index value n total : Nat} {bytes : List Byte} :
    decodeFrom index value bytes = .ok (n, total) ↔
      ∃ count, total = index + count ∧ Stops bytes count ∧ total ≤ maxLength ∧
        n = value + groupSum bytes count * 2 ^ (7 * index) ∧ groupSum bytes count * 2 ^ (7 * index) < 2 ^ 64 := by
  induction bytes generalizing index value with
  | nil => simp [decodeFrom, not_stops_nil]
  | cons byte rest ih =>
    have single : groupSum (byte :: rest) 1 = byte.toNat % 128 := groupSum_cons byte rest 0
    simp only [decodeFrom_cons_eq_ok_iff, ih, stops_cons_iff]
    constructor
    · rintro ⟨early, room, ⟨low, rfl, rfl⟩ | ⟨high, count, rfl, stops, few, rfl, fits⟩⟩
      · exact ⟨1, rfl, .inl ⟨low, rfl⟩, early, by rw [single], by rwa [single]⟩
      · refine ⟨count + 1, by omega, .inr ⟨high, count, rfl, stops⟩, few, ?_, ?_⟩
        · rw [groupSum_cons, shift_succ]
          ring
        · rw [groupSum_cons]
          have earlier : index + 1 < maxLength := by
            have := stops.nonempty
            omega
          exact (room_cons_iff earlier (Nat.mod_lt _ (by decide))).mpr fits
    · rintro ⟨count, rfl, ⟨low, rfl⟩ | ⟨high, count, rfl, stops⟩, few, rfl, fits⟩
      · rw [single] at fits ⊢
        exact ⟨few, fits, .inl ⟨low, rfl, rfl⟩⟩
      · have earlier : index + 1 < maxLength := by
          have := stops.nonempty
          omega
        rw [groupSum_cons] at fits ⊢
        have fits' := (room_cons_iff earlier (Nat.mod_lt _ (by decide))).mp fits
        refine ⟨by omega, ?_, .inr ⟨high, count, by omega, stops, by omega, ?_, fits'⟩⟩
        · exact Nat.lt_of_le_of_lt (Nat.mul_le_mul_right _ (Nat.le_add_right ..)) fits
        · rw [shift_succ]
          ring

theorem decode_eq_ok_iff {bytes : List Byte} {n count : Nat} :
    decode bytes = .ok (n, count) ↔ Grouped bytes n count := by
  rw [decode, decodeFrom_eq_ok_iff]
  simp only [Nat.zero_add, Nat.mul_zero, Nat.pow_zero, Nat.mul_one]
  constructor
  · rintro ⟨_, rfl, stops, few, rfl, fits⟩
    exact ⟨stops, few, rfl, fits⟩
  · rintro ⟨stops, few, rfl, fits⟩
    exact ⟨count, rfl, stops, few, rfl, fits⟩

private theorem decodeFrom_eq_truncated_iff {index value : Nat} {bytes : List Byte} :
    decodeFrom index value bytes = .error .truncated ↔
      index + bytes.length < maxLength ∧ ∀ byte ∈ bytes, 128 ≤ byte.toNat := by
  induction bytes generalizing index value with
  | nil =>
    rw [decodeFrom]
    by_cases late : maxLength ≤ index
    · simp [late]
    · simp [late, Nat.lt_of_not_le late]
  | cons byte rest ih =>
    rw [decodeFrom, List.length_cons, List.forall_mem_cons,
      show index + (rest.length + 1) = index + 1 + rest.length by omega]
    by_cases late : maxLength ≤ index
    · have long : ¬index + 1 + rest.length < maxLength := by omega
      simp [late, long]
    by_cases wide : index + 1 = maxLength ∧ 1 < byte.toNat % 128
    · simp [late, wide]
    by_cases low : byte.toNat < 128
    · simp [late, wide, low, Nat.not_le.mpr low]
    · simp only [late, wide, low, if_false, ih, Nat.le_of_not_lt low, true_and]

theorem decode_eq_truncated_iff {bytes : List Byte} : decode bytes = .error .truncated ↔ Unfinished bytes := by
  rw [decode, decodeFrom_eq_truncated_iff, Nat.zero_add]
  constructor
  · rintro ⟨few, high⟩
    exact ⟨few, fun byte member => (getLsbD_seven_iff byte).mpr (high byte member)⟩
  · rintro ⟨few, announced⟩
    exact ⟨few, fun byte member => (getLsbD_seven_iff byte).mp (announced byte member)⟩

/-- What is neither a prefix nor the beginning of one has too many bytes or bits. -/
theorem decode_eq_overflow_iff {bytes : List Byte} :
    decode bytes = .error .overflow ↔ (∀ n count, ¬Grouped bytes n count) ∧ ¬Unfinished bytes := by
  simp only [← decode_eq_ok_iff, ← decode_eq_truncated_iff]
  rcases decode bytes with (_ | _) | ⟨n, count⟩
  · simp
  · simp
  · simp

/-- The groups of a number are found in its bytes, whatever follows them. -/
theorem Grouped.take_append {bytes : List Byte} {n count : Nat} (grouped : Grouped bytes n count)
    (rest : List Byte) : Grouped (bytes.take count ++ rest) n count := by
  obtain ⟨⟨nonempty, within, announced, last⟩, few, sum, fits⟩ := grouped
  have sized : (bytes.take count).length = count := List.length_take_of_le within
  have same (i : Nat) (inside : i < count) : (bytes.take count ++ rest).getD i 0 = bytes.getD i 0 := by
    rw [List.getD_append _ _ _ _ (by omega), List.getD_eq_getElem?_getD, List.getElem?_take_of_lt inside,
      List.getD_eq_getElem?_getD]
  refine ⟨⟨nonempty, ?_, ?_, ?_⟩, few, ?_, fits⟩
  · rw [List.length_append]
    omega
  · intro i early
    rw [same i (by omega)]
    exact announced i early
  · rw [same _ (by omega)]
    exact last
  · rw [← sum]
    refine Finset.sum_congr rfl fun i member => ?_
    rw [same i (Finset.mem_range.mp member)]

private theorem decodeFrom_long (index value : Nat) {front : List Byte} (long : maxLength ≤ index + front.length)
    (rest rest' : List Byte) : decodeFrom index value (front ++ rest) = decodeFrom index value (front ++ rest') := by
  induction front generalizing index value with
  | nil =>
    have late : maxLength ≤ index := long
    cases rest <;> cases rest' <;> simp [decodeFrom, late]
  | cons byte front ih =>
    rw [List.length_cons] at long
    simp only [List.cons_append, decodeFrom, ih (index + 1) _ (by omega)]

/-- Bytes are read as a prefix exactly if they begin with the groups of a 64-bit number, which is then what they are
read as; they are cut short exactly if there are fewer than ten and each announces another one; and everything else
is refused. The bytes behind a prefix have no part in it, nor has anything behind the tenth byte. A 64-bit register
holds every sum of groups on the way, so that no bit is shifted out of it. -/
theorem decode_grammar (bytes : List Byte) :
    (∀ n count, decode bytes = .ok (n, count) ↔ Grouped bytes n count) ∧
    (decode bytes = .error .truncated ↔ Unfinished bytes) ∧
    (decode bytes = .error .overflow ↔ (∀ n count, ¬Grouped bytes n count) ∧ ¬Unfinished bytes) ∧
    (∀ n count, decode bytes = .ok (n, count) → ∀ rest, decode (bytes.take count ++ rest) = .ok (n, count)) ∧
    (maxLength ≤ bytes.length → ∀ rest, decode (bytes.take maxLength ++ rest) = decode bytes) ∧
    decode bytes = (Register.decode bytes).map fun found => (found.1.toNat, found.2) := by
  refine ⟨fun n count => decode_eq_ok_iff, decode_eq_truncated_iff, decode_eq_overflow_iff, ?_, ?_,
    Register.decode_eq bytes⟩
  · intro n count read rest
    exact decode_eq_ok_iff.mpr ((decode_eq_ok_iff.mp read).take_append rest)
  · intro long rest
    have front : maxLength ≤ 0 + (bytes.take maxLength).length := by
      rw [List.length_take_of_le long, Nat.zero_add]
    have same := decodeFrom_long 0 0 front rest (bytes.drop maxLength)
    rwa [List.take_append_drop] at same

/-- The number 300 with a group more than it needs, and ten bytes that each announce another one. -/
theorem decode_grammar_overlong :
    Grouped [0xAC, 0x82, 0, 7] 300 3 ∧ (∀ rest, decode ([0xAC, 0x82, 0] ++ rest) = .ok (300, 3)) ∧
      ∀ rest, decode (List.replicate 10 0xFF ++ rest) = .error .overflow := by
  have read : decode [0xAC, 0x82, 0, 7] = .ok (300, 3) := rfl
  have refused : decode (List.replicate 10 0xFF) = .error .overflow := rfl
  obtain ⟨grouped, -, -, behind, -, -⟩ := decode_grammar [0xAC, 0x82, 0, 7]
  obtain ⟨-, -, -, -, long, -⟩ := decode_grammar (List.replicate 10 0xFF)
  refine ⟨(grouped 300 3).mp read, behind 300 3 read, fun rest => ?_⟩
  rw [← refused]
  exact long (by decide) rest

theorem encodedLength_bounds (n : BitVec 64) :
    1 ≤ encodedLength n.toNat ∧ encodedLength n.toNat ≤ maxLength := by
  rw [← length_encode]
  exact ⟨List.length_pos_iff.mpr (encode_ne_nil n.toNat), length_encode_le_maxLength n.isLt⟩

/-- The bytes of a prefix denote its number on their own. -/
theorem Grouped.denotes_take {bytes : List Byte} {n count : Nat} (grouped : Grouped bytes n count) :
    Denotes (bytes.take count) n := by
  have alone := grouped.take_append []
  rw [List.append_nil] at alone
  rw [Denotes, List.length_take_of_le grouped.within]
  exact decode_eq_ok_iff.mpr alone

/-- A register is written inside the buffer, in as many bytes as its leading zeros tell, at least one and at most ten,
and is read back from these, whatever follows. Whatever bytes a number is read from are no fewer, and as many exactly
if they are the ones that are written for it. -/
theorem encode_shortest :
    (∀ n : BitVec 64, ∃ buffer, Register.encode n = some (buffer, Register.encodedLength n) ∧
      buffer.toList.take (Register.encodedLength n) = encode n.toNat ∧
      Register.encodedLength n = encodedLength n.toNat ∧ 1 ≤ encodedLength n.toNat ∧
      encodedLength n.toNat ≤ maxLength ∧
      ∀ suffix, decode (encode n.toNat ++ suffix) = .ok (n.toNat, encodedLength n.toNat)) ∧
    ∀ bytes n count, decode bytes = .ok (n, count) →
      encodedLength n ≤ count ∧ (count = encodedLength n ↔ bytes.take count = encode n) := by
  constructor
  · intro n
    obtain ⟨buffer, written, front⟩ := Register.encode_eq n
    obtain ⟨least, most⟩ := encodedLength_bounds n
    rw [length_encode] at written front
    rw [Register.encodedLength_eq]
    refine ⟨buffer, written, front, rfl, least, most, fun suffix => ?_⟩
    rw [← length_encode]
    exact decode_encode n.isLt suffix
  · intro bytes n count read
    have grouped := decode_eq_ok_iff.mp read
    have denotes := grouped.denotes_take
    have sized := List.length_take_of_le grouped.within
    have least := denotes.length_le
    rw [length_encode, sized] at least
    refine ⟨least, fun short => ?_, fun same => ?_⟩
    · refine denotes.eq_encode ?_
      rw [sized, length_encode, short]
    · rw [← length_encode, ← same, sized]

/-- The greatest number, and the number 300 in its two bytes and in three. -/
theorem encode_shortest_overlong :
    encodedLength 18446744073709551615 = 10 ∧
      (2 = encodedLength 300 ↔ [0xAC, 0x02] = encode 300) ∧
      encodedLength 300 ≤ 3 ∧ (3 = encodedLength 300 ↔ [0xAC, 0x82, 0] = encode 300) := by
  obtain ⟨-, spelled⟩ := encode_shortest
  have short := spelled [0xAC, 0x02, 7] 300 2 rfl
  have long := spelled [0xAC, 0x82, 0, 7] 300 3 rfl
  exact ⟨by decide, short.2, long.1, long.2⟩

end TypedWire.Varint
