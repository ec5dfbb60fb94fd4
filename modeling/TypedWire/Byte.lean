namespace TypedWire

-- Powers are those of `Nat` and `Int` themselves, whichever other instances are in scope.
attribute [local instance (high)] instPowNat

abbrev Byte := BitVec 8

/-- The `width` lowest base-256 digits of `n`, most significant first. -/
def bigEndian : (width : Nat) → (n : Nat) → List Byte
  | 0, _ => []
  | width + 1, n => BitVec.ofNat 8 (n / 256 ^ width) :: bigEndian width n

/-- The natural whose base-256 digits are `bytes`, most significant first. -/
def ofBigEndian (bytes : List Byte) : Nat :=
  bytes.foldl (fun value byte => value * 256 + byte.toNat) 0

@[simp] theorem length_bigEndian (width n : Nat) : (bigEndian width n).length = width := by
  induction width with
  | zero => rfl
  | succ width ih => simp [bigEndian, ih]

private theorem foldl_digits (bytes : List Byte) (start : Nat) :
    bytes.foldl (fun value byte => value * 256 + byte.toNat) start =
      start * 256 ^ bytes.length + ofBigEndian bytes := by
  unfold ofBigEndian
  induction bytes generalizing start with
  | nil => simp
  | cons byte rest ih =>
    simp only [List.foldl_cons, List.length_cons]
    rw [ih, ih (0 * 256 + byte.toNat), Nat.add_mul, Nat.pow_succ, Nat.zero_mul, Nat.zero_add]
    rw [Nat.mul_assoc, Nat.mul_comm 256, Nat.add_assoc]

@[simp] theorem ofBigEndian_nil : ofBigEndian [] = 0 := rfl

theorem ofBigEndian_cons (byte : Byte) (rest : List Byte) :
    ofBigEndian (byte :: rest) = byte.toNat * 256 ^ rest.length + ofBigEndian rest := by
  have step := foldl_digits rest (0 * 256 + byte.toNat)
  simp only [Nat.zero_mul, Nat.zero_add] at step
  simpa [ofBigEndian] using step

theorem ofBigEndian_lt (bytes : List Byte) : ofBigEndian bytes < 256 ^ bytes.length := by
  induction bytes with
  | nil => simp
  | cons byte rest ih =>
    rw [ofBigEndian_cons, List.length_cons, Nat.pow_succ]
    have bound : byte.toNat ≤ 255 := by have := byte.isLt; omega
    have scaled := Nat.mul_le_mul_right (256 ^ rest.length) bound
    omega

theorem ofBigEndian_bigEndian (width n : Nat) : ofBigEndian (bigEndian width n) = n % 256 ^ width := by
  induction width with
  | zero => simp [bigEndian, Nat.mod_one]
  | succ width ih =>
    rw [bigEndian, ofBigEndian_cons, length_bigEndian, ih, BitVec.toNat_ofNat, Nat.pow_succ 256,
      Nat.mod_mul, Nat.mul_comm (256 ^ width), Nat.add_comm]

private theorem bigEndian_mod (width n : Nat) : bigEndian width (n % 256 ^ width) = bigEndian width n := by
  suffices general : ∀ extra, bigEndian width (n % 256 ^ (width + extra)) = bigEndian width n by
    simpa using general 0
  intro extra
  induction width generalizing extra with
  | zero => rfl
  | succ width ih =>
    simp only [bigEndian, List.cons.injEq]
    constructor
    · apply BitVec.eq_of_toNat_eq
      simp only [BitVec.toNat_ofNat]
      rw [show width + 1 + extra = width + (1 + extra) by omega, Nat.pow_add, Nat.mod_mul_right_div_self,
        show (2 : Nat) ^ 8 = 256 from rfl, Nat.pow_add, Nat.pow_one, Nat.mod_mul_right_mod]
    · rw [show width + 1 + extra = width + (1 + extra) by omega, ih]

theorem bigEndian_ofBigEndian (bytes : List Byte) : bigEndian bytes.length (ofBigEndian bytes) = bytes := by
  induction bytes with
  | nil => rfl
  | cons byte rest ih =>
    have small := ofBigEndian_lt rest
    have positive : 0 < 256 ^ rest.length := Nat.pow_pos (by decide)
    simp only [List.length_cons, bigEndian, ofBigEndian_cons, List.cons.injEq]
    constructor
    · rw [Nat.add_comm, Nat.add_mul_div_right _ _ positive, Nat.div_eq_of_lt small, Nat.zero_add,
        BitVec.ofNat_toNat, BitVec.setWidth_eq]
    · rw [← bigEndian_mod, Nat.add_comm, Nat.add_mul_mod_self_right, Nat.mod_eq_of_lt small, ih]

end TypedWire
