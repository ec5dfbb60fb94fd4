import TypedWire.Varint
import Mathlib.Data.Nat.Log
import Mathlib.Tactic.Ring

/-! A prefix ends at its first byte without the high bit, so nothing that follows is taken for a part of it.
None of the other spellings of a number is shorter than its prefix, or as short. -/

namespace TypedWire.Varint

/-! ### The bytes of a prefix -/

private theorem toNat_high (n : Nat) : (BitVec.ofNat 8 (n % 128 + 128)).toNat = n % 128 + 128 := by
  rw [BitVec.toNat_ofNat, Nat.mod_eq_of_lt (by omega)]

private theorem toNat_low {n : Nat} (small : n < 128) : (BitVec.ofNat 8 n).toNat = n := by
  rw [BitVec.toNat_ofNat, Nat.mod_eq_of_lt (by omega)]

theorem shift_succ (index : Nat) : 2 ^ (7 * (index + 1)) = 128 * 2 ^ (7 * index) := by
  rw [Nat.mul_add, Nat.pow_add, Nat.mul_comm]

/-- A group has room in 64 bits at every place but the tenth, where there is only one bit left. -/
theorem room_iff {index group : Nat} (early : index < maxLength) (small : group < 128) :
    group * 2 ^ (7 * index) < 2 ^ 64 ↔ ¬(index + 1 = maxLength ∧ 1 < group) := by
  have before : index < 10 := early
  by_cases tenth : index = 9
  · have last : index + 1 = maxLength := congrArg (· + 1) tenth
    rw [tenth] at last ⊢
    simp only [last, true_and]
    omega
  · have last : ¬index + 1 = maxLength := fun last => tenth (Nat.succ.inj last)
    simp only [last, false_and, not_false_iff, iff_true]
    calc
      group * 2 ^ (7 * index) < 128 * 2 ^ (7 * index) := Nat.mul_lt_mul_of_pos_right small (Nat.two_pow_pos _)
      _ = 2 ^ (7 * (index + 1)) := (shift_succ index).symm
      _ ≤ 2 ^ 64 := Nat.pow_le_pow_right (by decide) (by omega)

theorem room_cons_iff {index group others : Nat} (early : index + 1 < maxLength) (small : group < 128) :
    (group + 128 * others) * 2 ^ (7 * index) < 2 ^ 64 ↔ others * 2 ^ (7 * (index + 1)) < 2 ^ 64 := by
  have before : index + 1 < 10 := early
  have positive : 0 < 2 ^ (7 * index) := Nat.two_pow_pos _
  have whole : (2 : Nat) ^ 64 = 128 * 2 ^ (57 - 7 * index) * 2 ^ (7 * index) := by
    rw [show (128 : Nat) = 2 ^ 7 from rfl, ← Nat.pow_add, ← Nat.pow_add]
    congr 1
    omega
  rw [whole, shift_succ, ← Nat.mul_assoc, Nat.mul_lt_mul_right positive, Nat.mul_lt_mul_right positive]
  omega

/-- The digits of a number tell how many bytes its prefix has. -/
theorem length_encode (n : Nat) : (encode n).length = encodedLength n := by
  have digits (n : Nat) : encodedLength n = if n < 128 then 1 else encodedLength (n / 128) + 1 := by
    by_cases small : n < 128
    · by_cases zero : n = 0
      · simp [encodedLength, zero]
      · have short : n.log2 < 7 := (Nat.log2_lt zero).mpr small
        rw [if_pos small, encodedLength, if_neg zero]
        omega
    · have shifted : (n / 128).log2 = n.log2 - 7 := by
        rw [Nat.log2_eq_log_two, Nat.log2_eq_log_two]
        exact Nat.log_div_base_pow 2 n 7
      have long : 7 ≤ n.log2 := (Nat.le_log2 (by omega)).mpr (by omega)
      rw [if_neg small, encodedLength, encodedLength, if_neg (by omega), if_neg (by omega), shifted]
      omega
  induction n using encode.induct with
  | case1 n small => rw [encode_of_lt small, digits, if_pos small, List.length_singleton]
  | case2 n large ih => rw [encode_of_ge (by omega), List.length_cons, ih, digits n, if_neg large]

/-- A number below `2 ^ (7 * count)` takes at most `count` bytes. -/
theorem length_encode_le {n count : Nat} (positive : 0 < count) (bound : n < 2 ^ (7 * count)) :
    (encode n).length ≤ count := by
  induction n using encode.induct generalizing count with
  | case1 n small =>
    rw [encode_of_lt small]
    exact positive
  | case2 n large ih =>
    obtain ⟨count, rfl⟩ : ∃ fewer, count = fewer + 1 := ⟨count - 1, by omega⟩
    have more : 0 < count := by
      rcases Nat.eq_zero_or_pos count with rfl | more
      · omega
      · exact more
    have bound' : n / 128 < 2 ^ (7 * count) := by
      rw [Nat.div_lt_iff_lt_mul (by decide)]
      calc
        n < 2 ^ (7 * (count + 1)) := bound
        _ = 2 ^ (7 * count) * 128 := by rw [Nat.mul_add, Nat.pow_add]
    rw [encode_of_ge (by omega), List.length_cons]
    exact Nat.succ_le_succ (ih more bound')

theorem length_encode_le_maxLength {n : Nat} (bound : n < 2 ^ 64) : (encode n).length ≤ maxLength :=
  length_encode_le (by decide) (Nat.lt_of_lt_of_le bound (by decide))

/-! ### Reading back -/

private theorem decodeFrom_encode {n index : Nat} (value : Nat) (rest : List Byte) (early : index < maxLength)
    (bound : n * 2 ^ (7 * index) < 2 ^ 64) :
    decodeFrom index value (encode n ++ rest) =
      .ok (value + n * 2 ^ (7 * index), index + (encode n).length) := by
  induction n using encode.induct generalizing index value with
  | case1 n small =>
    -- In the tenth place only the lowest bit is within 64 bits.
    have fits : ¬(index + 1 = maxLength ∧ 1 < n) := by
      rintro ⟨tenth, wide⟩
      have nine : index = 9 := by
        have : index + 1 = 10 := tenth
        omega
      subst nine
      omega
    rw [encode_of_lt small, List.singleton_append, decodeFrom]
    simp only [toNat_low small, Nat.mod_eq_of_lt small]
    rw [if_neg (by omega), if_neg fits, if_pos small]
    rfl
  | case2 n large ih =>
    have notTenth : index + 1 < maxLength := by
      by_contra late
      have nine : index = 9 := by
        have : index < 10 := early
        have : ¬index + 1 < 10 := late
        omega
      subst nine
      omega
    have digits : n % 128 + 128 * (n / 128) = n := Nat.mod_add_div n 128
    have sum : n % 128 * 2 ^ (7 * index) + n / 128 * 2 ^ (7 * (index + 1)) = n * 2 ^ (7 * index) := by
      rw [shift_succ]
      calc
        _ = (n % 128 + 128 * (n / 128)) * 2 ^ (7 * index) := by ring
        _ = n * 2 ^ (7 * index) := by rw [digits]
    have onward := ih (value + n % 128 * 2 ^ (7 * index)) notTenth (by omega)
    rw [encode_of_ge (by omega), List.cons_append, decodeFrom]
    simp only [toNat_high, Nat.add_mod_right, Nat.mod_mod]
    rw [if_neg (by omega), if_neg (by omega), if_neg (by omega), onward, List.length_cons, Nat.add_assoc, sum]
    congr 2
    omega

/-- A 64-bit number is read back from its prefix, whatever follows. -/
theorem decode_encode {n : Nat} (bound : n < 2 ^ 64) (rest : List Byte) :
    decode (encode n ++ rest) = .ok (n, (encode n).length) := by
  have read := decodeFrom_encode 0 rest (show 0 < maxLength by decide) (by simpa using bound)
  simpa [decode] using read

/-- Two prefixes at the front of the same bytes are one, of numbers of any size. -/
theorem encode_append_inj {m n : Nat} {rest rest' : List Byte}
    (same : encode m ++ rest = encode n ++ rest') : m = n ∧ rest = rest' := by
  induction m using encode.induct generalizing n with
  | case1 m small =>
    rw [encode_of_lt small] at same
    by_cases smallN : n < 128
    · rw [encode_of_lt smallN] at same
      obtain ⟨first, later⟩ := List.cons.inj same
      have values := congrArg BitVec.toNat first
      rw [toNat_low small, toNat_low smallN] at values
      exact ⟨values, later⟩
    · rw [encode_of_ge (by omega)] at same
      have first := congrArg BitVec.toNat (List.cons.inj same).1
      rw [toNat_low small, toNat_high] at first
      omega
  | case2 m large ih =>
    rw [encode_of_ge (by omega)] at same
    by_cases smallN : n < 128
    · rw [encode_of_lt smallN] at same
      have first := congrArg BitVec.toNat (List.cons.inj same).1
      rw [toNat_low smallN, toNat_high] at first
      omega
    · rw [encode_of_ge (show 128 ≤ n by omega)] at same
      obtain ⟨first, later⟩ := List.cons.inj same
      have values := congrArg BitVec.toNat first
      rw [toNat_high, toNat_high] at values
      obtain ⟨quotients, tails⟩ := ih later
      exact ⟨by omega, tails⟩

/-! ### Every spelling of a length -/

/-- The bytes are a prefix that stands for `n`, shortest or not. -/
def Denotes (bytes : List Byte) (n : Nat) : Prop := decode bytes = .ok (n, bytes.length)

theorem denotes_encode {n : Nat} (bound : n < 2 ^ 64) : Denotes (encode n) n := by
  have read := decode_encode bound []
  rwa [List.append_nil] at read

/-- One byte on the way to a number: there is room for its group, and it is the last one or announces others. -/
theorem decodeFrom_cons_eq_ok_iff {index value n total : Nat} {byte : Byte} {rest : List Byte} :
    decodeFrom index value (byte :: rest) = .ok (n, total) ↔
      index < maxLength ∧ byte.toNat % 128 * 2 ^ (7 * index) < 2 ^ 64 ∧
        (byte.toNat < 128 ∧ n = value + byte.toNat % 128 * 2 ^ (7 * index) ∧ total = index + 1 ∨
          128 ≤ byte.toNat ∧
            decodeFrom (index + 1) (value + byte.toNat % 128 * 2 ^ (7 * index)) rest = .ok (n, total)) := by
  rw [decodeFrom]
  by_cases late : maxLength ≤ index
  · simp [late, Nat.not_lt.mpr late]
  have early := Nat.lt_of_not_le late
  rw [room_iff early (Nat.mod_lt _ (by decide))]
  simp only [if_neg late, early, true_and]
  by_cases wide : index + 1 = maxLength ∧ 1 < byte.toNat % 128
  · simp [wide]
  simp only [wide, not_false_iff, true_and]
  by_cases low : byte.toNat < 128
  · simp [low, Nat.not_le.mpr low, eq_comm]
  · simp [low, Nat.le_of_not_lt low]

/-- One byte of a number that is read: it is the last one, or has its high bit set and is followed by others. -/
private theorem decodeFrom_cons {index value n count : Nat} {byte : Byte} {rest : List Byte}
    (read : decodeFrom index value (byte :: rest) = .ok (n, count)) :
    index < maxLength ∧
      (byte.toNat < 128 ∧ n = value + byte.toNat * 2 ^ (7 * index) ∧ count = index + 1 ∨
        128 ≤ byte.toNat ∧
          decodeFrom (index + 1) (value + byte.toNat % 128 * 2 ^ (7 * index)) rest = .ok (n, count)) := by
  obtain ⟨early, -, ⟨low, number, counted⟩ | further⟩ := decodeFrom_cons_eq_ok_iff.mp read
  · rw [Nat.mod_eq_of_lt low] at number
    exact ⟨early, .inl ⟨low, number, counted⟩⟩
  · exact ⟨early, .inr further⟩

private theorem shape_of_decodeFrom {index value n count : Nat} {bytes : List Byte}
    (read : decodeFrom index value bytes = .ok (n, count)) :
    ∃ front last rest, bytes = front ++ last :: rest ∧ (∀ byte ∈ front, 128 ≤ byte.toNat) ∧ last.toNat < 128 ∧
      count = index + front.length + 1 ∧ count ≤ maxLength := by
  induction bytes generalizing index value with
  | nil => cases read
  | cons byte rest ih =>
    obtain ⟨early, ⟨low, -, rfl⟩ | ⟨high, read⟩⟩ := decodeFrom_cons read
    · exact ⟨[], byte, rest, rfl, by simp, low, rfl, early⟩
    · obtain ⟨front, last, rest', rfl, others, low, counted, bound⟩ := ih read
      refine ⟨byte :: front, last, rest', rfl, ?_, low, ?_, bound⟩
      · rintro b (_ | ⟨_, member⟩)
        · exact high
        · exact others b member
      · rw [counted, List.length_cons]
        omega

/-- A prefix ends at its first byte without the high bit, and has at most ten bytes. -/
theorem Denotes.shape {bytes : List Byte} {n : Nat} (denotes : Denotes bytes n) :
    ∃ front last, bytes = front ++ [last] ∧ (∀ byte ∈ front, 128 ≤ byte.toNat) ∧ last.toNat < 128 ∧
      front.length < maxLength := by
  obtain ⟨front, last, rest, rfl, high, low, counted, bound⟩ := shape_of_decodeFrom denotes
  have nothing : rest = [] := by
    rw [List.length_append, List.length_cons] at counted
    exact List.length_eq_zero_iff.mp (by omega)
  rw [nothing]
  exact ⟨front, last, rfl, high, low, by omega⟩

theorem high_concat {front : List Byte} {last : Byte} (high : ∀ byte ∈ front, 128 ≤ byte.toNat)
    (further : ¬last.toNat < 128) : ∀ byte ∈ front ++ [last], 128 ≤ byte.toNat := by
  intro byte member
  rcases List.mem_append.mp member with there | here
  · exact high byte there
  · rw [List.mem_singleton.mp here]
    exact Nat.le_of_not_lt further

/-- Where only the last byte can be without the high bit, a number is read to the end. -/
theorem denotes_of_decode {front : List Byte} {last : Byte} {n count : Nat}
    (high : ∀ byte ∈ front, 128 ≤ byte.toNat) (read : decode (front ++ [last]) = .ok (n, count)) :
    Denotes (front ++ [last]) n := by
  suffices general : ∀ index value, decodeFrom index value (front ++ [last]) = .ok (n, count) →
      count = index + (front ++ [last]).length by
    have counted := general 0 0 read
    rw [Nat.zero_add] at counted
    rw [Denotes, read, counted]
  clear read
  induction front with
  | nil =>
    intro index value read
    obtain ⟨-, ⟨-, -, counted⟩ | ⟨-, read⟩⟩ := decodeFrom_cons read
    · exact counted
    · cases read
  | cons byte front ih =>
    intro index value read
    obtain ⟨-, ⟨low, -, -⟩ | ⟨-, read⟩⟩ := decodeFrom_cons read
    · exact absurd low (Nat.not_lt.mpr (high byte (by simp)))
    · rw [ih (fun b member => high b (List.mem_cons_of_mem _ member)) _ _ read, List.cons_append, List.length_cons]
      omega

/-! ### What follows a prefix -/

private theorem decodeFrom_append {index value : Nat} {bytes : List Byte} {found : Nat × Nat}
    (read : decodeFrom index value bytes = .ok found) (rest : List Byte) :
    decodeFrom index value (bytes ++ rest) = .ok found := by
  induction bytes generalizing index value with
  | nil => cases read
  | cons byte bytes ih =>
    rw [List.cons_append, decodeFrom]
    rw [decodeFrom] at read
    by_cases late : maxLength ≤ index
    · simp [late] at read
    by_cases wide : index + 1 = maxLength ∧ 1 < byte.toNat % 128
    · simp [late, wide] at read
    simp only [late, wide, if_false] at read ⊢
    by_cases low : byte.toNat < 128
    · rwa [if_pos low] at read ⊢
    · rw [if_neg low] at read ⊢
      exact ih read

/-- What follows a prefix is no part of it. -/
theorem Denotes.decode_append {bytes : List Byte} {n : Nat} (denotes : Denotes bytes n) (rest : List Byte) :
    decode (bytes ++ rest) = .ok (n, bytes.length) := decodeFrom_append denotes rest

private theorem decodeFrom_overflow {index value : Nat} {front : List Byte} (high : ∀ byte ∈ front, 128 ≤ byte.toNat)
    (long : maxLength ≤ index + front.length) (rest : List Byte) :
    decodeFrom index value (front ++ rest) = .error .overflow := by
  induction front generalizing index value with
  | nil => cases rest <;> simp_all [decodeFrom]
  | cons byte front ih =>
    have further : ¬byte.toNat < 128 := Nat.not_lt.mpr (high byte (by simp))
    rw [List.cons_append, decodeFrom]
    rw [List.length_cons] at long
    have later := @ih (index + 1) (value + byte.toNat % 128 * 2 ^ (7 * index))
      (fun b member => high b (List.mem_cons_of_mem _ member)) (by omega)
    simp only [if_neg further, later, ite_self]

/-- Ten bytes that announce another one are too many, whatever follows. -/
theorem decode_overflow {front : List Byte} (high : ∀ byte ∈ front, 128 ≤ byte.toNat)
    (long : maxLength ≤ front.length) (rest : List Byte) : decode (front ++ rest) = .error .overflow :=
  decodeFrom_overflow high (by omega) rest

private theorem decodeFrom_fault {index value : Nat} {front : List Byte} {last : Byte} {fault : VarintError}
    (high : ∀ byte ∈ front, 128 ≤ byte.toNat) (low : last.toNat < 128)
    (refused : decodeFrom index value (front ++ [last]) = .error fault) (rest : List Byte) :
    decodeFrom index value (front ++ last :: rest) = .error .overflow := by
  induction front generalizing index value with
  | nil =>
    simp only [List.nil_append] at refused ⊢
    rw [decodeFrom] at refused ⊢
    by_cases late : maxLength ≤ index
    · simp [late]
    by_cases wide : index + 1 = maxLength ∧ 1 < last.toNat % 128
    · simp [late, wide]
    · simp [late, wide, low] at refused
  | cons byte front ih =>
    have further : ¬byte.toNat < 128 := Nat.not_lt.mpr (high byte (by simp))
    rw [List.cons_append, decodeFrom] at refused ⊢
    by_cases late : maxLength ≤ index
    · simp [late]
    by_cases wide : index + 1 = maxLength ∧ 1 < byte.toNat % 128
    · simp [late, wide]
    simp only [late, wide, if_false, if_neg further] at refused ⊢
    exact ih (fun b member => high b (List.mem_cons_of_mem _ member)) refused

/-- Where a byte without the high bit comes last and no number is read, there are too many bits, whatever follows. -/
theorem decode_fault {front : List Byte} {last : Byte} {fault : VarintError}
    (high : ∀ byte ∈ front, 128 ≤ byte.toNat) (low : last.toNat < 128)
    (refused : decode (front ++ [last]) = .error fault) (rest : List Byte) :
    decode (front ++ last :: rest) = .error .overflow := decodeFrom_fault high low refused rest

/-! ### The shortest spelling -/

private theorem encode_of_decodeFrom {index value n : Nat} {bytes : List Byte}
    (read : decodeFrom index value bytes = .ok (n, index + bytes.length)) :
    ∃ m, n = value + m * 2 ^ (7 * index) ∧ (encode m).length ≤ bytes.length ∧
      (bytes.length = (encode m).length → bytes = encode m) := by
  induction bytes generalizing index value with
  | nil => cases read
  | cons byte rest ih =>
    obtain ⟨-, ⟨low, number, -⟩ | ⟨high, read⟩⟩ := decodeFrom_cons read
    · have single : encode byte.toNat = [byte] := by
        rw [encode_of_lt low, BitVec.ofNat_toNat, BitVec.setWidth_eq]
      refine ⟨byte.toNat, number, by simp [single], fun same => ?_⟩
      have alone : rest = [] := by simpa [single] using same
      rw [single, alone]
    · rw [List.length_cons, show index + (rest.length + 1) = index + 1 + rest.length by omega] at read
      obtain ⟨m, number, short, tight⟩ := ih read
      have small := byte.isLt
      refine ⟨byte.toNat % 128 + 128 * m, ?_, ?_⟩
      · rw [number, shift_succ]
        ring
      · by_cases few : byte.toNat % 128 + 128 * m < 128
        · -- The groups behind this one add nothing, so the spelling is longer than it has to be.
          have nonempty := List.length_pos_iff.mpr (encode_ne_nil m)
          rw [encode_of_lt few]
          simp only [List.length_cons, List.length_nil]
          exact ⟨by omega, by omega⟩
        · have group : BitVec.ofNat 8 ((byte.toNat % 128 + 128 * m) % 128 + 128) = byte := by
            rw [show (byte.toNat % 128 + 128 * m) % 128 + 128 = byte.toNat by omega, BitVec.ofNat_toNat,
              BitVec.setWidth_eq]
          rw [encode_of_ge (Nat.le_of_not_lt few), group, show (byte.toNat % 128 + 128 * m) / 128 = m by omega]
          simp only [List.length_cons]
          refine ⟨by omega, fun same => ?_⟩
          rw [← tight (by omega)]

/-- No spelling of a number is shorter than its shortest one. -/
theorem Denotes.length_le {bytes : List Byte} {n : Nat} (denotes : Denotes bytes n) :
    (encode n).length ≤ bytes.length := by
  obtain ⟨m, rfl, short, -⟩ := @encode_of_decodeFrom 0 0 _ bytes (by simpa [Denotes, decode] using denotes)
  simpa using short

/-- A spelling no longer than the shortest one is that. -/
theorem Denotes.eq_encode {bytes : List Byte} {n : Nat} (denotes : Denotes bytes n)
    (short : bytes.length = (encode n).length) : bytes = encode n := by
  obtain ⟨m, rfl, -, tight⟩ := @encode_of_decodeFrom 0 0 _ bytes (by simpa [Denotes, decode] using denotes)
  simp only [Nat.mul_zero, Nat.pow_zero, Nat.mul_one, Nat.zero_add] at short ⊢
  exact tight short

end TypedWire.Varint
