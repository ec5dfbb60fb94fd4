import TypedWire.TwosComplement
import TypedWire.Word
import Mathlib.Algebra.Group.Int.Defs
import Mathlib.Algebra.Group.Nat.Defs

namespace TypedWire

theorem Width.pow_bytes (w : Width) : 256 ^ w.bytes = 2 ^ w.bits := by
  rw [Width.bits, Nat.pow_mul]

/-- A word is read back from its bytes. -/
theorem ofNat_ofBigEndian (w : Width) (v : Word w) :
    BitVec.ofNat w.bits (ofBigEndian (bigEndian w.bytes v.toNat)) = v := by
  have bound : v.toNat < 256 ^ w.bytes := w.pow_bytes ▸ v.isLt
  rw [ofBigEndian_bigEndian, Nat.mod_eq_of_lt bound, BitVec.ofNat_toNat, BitVec.setWidth_eq]

theorem bigEndian_byte (b : Byte) : bigEndian 1 b.toNat = [b] := by simp [bigEndian]

theorem bigEndian_word_iff {w : Width} {a b : Word w} :
    bigEndian w.bytes a.toNat = bigEndian w.bytes b.toNat ↔ a = b := by
  constructor
  · intro same
    rw [← ofNat_ofBigEndian w a, same, ofNat_ofBigEndian]
  · rintro rfl
    rfl

namespace TwosComplement

theorem lt_two_pow_bitLength (n : Nat) : n < 2 ^ bitLength n := by
  unfold bitLength
  by_cases zero : n = 0
  · simp [zero]
  · rw [if_neg zero]
    exact Nat.lt_log2_self

/-- The digits of an integer leave room for the sign bit. -/
theorem magnitude_fits (n : Int) : 2 * (magnitude n + 1) ≤ 256 ^ width n := by
  have digits := lt_two_pow_bitLength (magnitude n)
  have room : bitLength (magnitude n) + 1 ≤ 8 * width n := by
    unfold width
    omega
  calc
    2 * (magnitude n + 1) ≤ 2 ^ (bitLength (magnitude n) + 1) := by rw [Nat.pow_succ]; omega
    _ ≤ 2 ^ (8 * width n) := Nat.pow_le_pow_right (by decide) room
    _ = 256 ^ width n := by rw [Nat.pow_mul]

theorem magnitude_bounds (n : Int) : -(magnitude n : Int) - 1 ≤ n ∧ n ≤ magnitude n := by
  cases n with
  | ofNat n =>
    simp only [magnitude, Int.ofNat_eq_natCast]
    omega
  | negSucc n =>
    simp only [magnitude]
    omega

theorem bmod_width (n : Int) : Int.bmod n (256 ^ width n) = n := by
  have small := magnitude_fits n
  obtain ⟨above, below⟩ := magnitude_bounds n
  generalize 256 ^ width n = modulus at small
  exact Int.bmod_eq_of_le_mul_two (by omega) (by omega)

/-- An integer is read back from its numeral. -/
theorem decode_encode (n : Int) : decode (encode n) = n := by
  have power : (256 : Int) ^ width n = ((256 ^ width n : Nat) : Int) :=
    (Int.natCast_pow 256 (width n)).symm
  have positive : (0 : Int) < (256 ^ width n : Nat) := by
    rw [← power]
    exact Int.pow_pos (by decide)
  have residue := Int.emod_nonneg n (Int.ne_of_gt positive)
  have below := Int.emod_lt_of_pos n positive
  rw [decode, length_encode, encode, power, ofBigEndian_bigEndian, Nat.mod_eq_of_lt (by omega),
    Int.toNat_of_nonneg residue, Int.emod_bmod, bmod_width]

theorem encode_eq_iff {m n : Int} : encode m = encode n ↔ m = n := by
  constructor
  · intro same
    rw [← decode_encode m, same, decode_encode]
  · rintro rfl
    rfl

theorem bitLength_le {n count : Nat} (bound : n < 2 ^ count) : bitLength n ≤ count := by
  unfold bitLength
  by_cases zero : n = 0
  · simp [zero]
  · rw [if_neg zero]
    exact (Nat.log2_lt zero).mpr bound

theorem width_le {n : Int} {count : Nat} (fits : 2 * (magnitude n + 1) ≤ 256 ^ count) : width n ≤ count := by
  have positive : 0 < count := by
    apply Nat.pos_of_ne_zero
    rintro rfl
    omega
  have digits : magnitude n < 2 ^ (8 * count - 1) := by
    have power : 256 ^ count = 2 * 2 ^ (8 * count - 1) := by
      rw [← Nat.pow_succ', show (8 * count - 1).succ = 8 * count by omega, Nat.pow_mul]
    omega
  have length := bitLength_le digits
  unfold width
  omega

/-- No numeral of an integer is shorter than its shortest one; the empty one stands for zero. -/
theorem width_decode (bytes : List Byte) : width (decode bytes) ≤ max 1 bytes.length := by
  by_cases empty : bytes = []
  · rw [empty, decode_nil]
    decide
  · have positive := List.length_pos_iff.mpr empty
    have even : 256 ^ bytes.length % 2 = 0 := by
      rw [show bytes.length = bytes.length - 1 + 1 by omega, Nat.pow_succ]
      omega
    have nonzero : 0 < 256 ^ bytes.length := Nat.pow_pos (by decide)
    refine Nat.le_trans (width_le ?_) (Nat.le_max_right 1 _)
    have above := Int.le_bmod (x := (ofBigEndian bytes : Int)) nonzero
    have below := Int.bmod_lt (x := (ofBigEndian bytes : Int)) nonzero
    unfold decode
    generalize Int.bmod (ofBigEndian bytes) (256 ^ bytes.length) = n at above below
    cases n with
    | ofNat n =>
      simp only [magnitude, Int.ofNat_eq_natCast] at above below ⊢
      omega
    | negSucc n =>
      simp only [magnitude] at above below ⊢
      omega

theorem width_mono {m n : Int} (between : 0 ≤ m ∧ m ≤ n ∨ n ≤ m ∧ m < 0) : width m ≤ width n := by
  have fits := magnitude_fits n
  have fewer : magnitude m ≤ magnitude n := by
    cases m <;> cases n <;> simp only [magnitude, Int.ofNat_eq_natCast] at between ⊢ <;> omega
  exact width_le (by omega)

end TwosComplement
end TypedWire
