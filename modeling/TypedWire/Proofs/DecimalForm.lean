import TypedWire.Proofs.DecimalValue
import TypedWire.Proofs.GroupingKey
import TypedWire.Proofs.SignedNumerals

namespace TypedWire.Codec

theorem toBytes_decimal {d n : Decimal} (normal : d.normal = some n) :
    decimal.toBytes d = .ok (bigEndian Width.eight.bytes n.scale.toNat ++
      (Varint.encode (TwosComplement.encode n.digits).length ++ TwosComplement.encode n.digits)) := by
  refine toBytes_decimal_iff.mpr ⟨n, normal, toBytes_pair_iff.mpr ⟨_, _, ?_, ?_, rfl⟩⟩
  · exact toBytes_int .signed .eight n.scale
  · exact toBytes_integer n.digits

theorem toBytes_decimal_of_overflow {d : Decimal} (unfit : ¬d.ScaleFits) :
    decimal.toBytes d = .error (.mapping .overflow) := by
  have parts : decimalParts d = .error .overflow := by rw [decimalParts, (Decimal.normal_eq_none_iff d).mpr unfit]
  rw [decimal, toBytes, encode_derived, parts]
  rfl

/-- A scale and a numeral are read as the decimal with this scale and the digits that the numeral stands for. -/
theorem reads_decimal {limits : DecodeLimits} {spelling payload : List Byte} (scale : BitVec 64)
    (within : payload.length ≤ limits.maxLength.toNat) (denotes : Varint.Denotes spelling payload.length) :
    Decoder.Reads limits decimal.decode (bigEndian Width.eight.bytes scale.toNat ++ (spelling ++ payload))
      ⟨TwosComplement.signedValue payload, scale⟩ := by
  have front := (@Decoder.reads_word limits .eight scale).labeled "first"
  have back := (reads_integer within denotes).labeled "second"
  have parts : Decoder.Reads limits (Codec.pair (.int .signed .eight) integer).decode
      (bigEndian Width.eight.bytes scale.toNat ++ (spelling ++ payload))
      (scale, TwosComplement.signedValue payload) := front.bind (back.map fun digits => (_, digits))
  exact parts.map fun parts => Decimal.mk parts.2 parts.1

/-- Two decimals, one of which has room in its scale for the trailing zeros, have one encoding exactly if they stand for
one number. -/
theorem toBytes_decimal_eq_iff {a b n : Decimal} (normal : a.normal = some n) :
    decimal.toBytes b = decimal.toBytes a ↔ b.value = a.value := by
  constructor
  · intro same
    rw [toBytes_decimal normal] at same
    obtain ⟨m, normal', -⟩ := toBytes_decimal_iff.mp same
    exact alike_of_same .decimal (Decimal.scaleFits_of_normal normal') (Decimal.scaleFits_of_normal normal) same
      (toBytes_decimal normal)
  · intro same
    obtain ⟨m, normal'⟩ :=
      Decimal.exists_normal (Decimal.scaleFits_congr same.symm (Decimal.scaleFits_of_normal normal))
    rw [toBytes_decimal normal', toBytes_decimal normal, (Decimal.normal_eq_iff normal' normal).mpr same]

/-- A decimal whose scale has room for the trailing zeros is written and read back as its normal form, which stands for
the same number and has digits that are zero, under the scale zero, or that ten does not divide; another decimal has
the same encoding exactly if it stands for the same number. Without that room the subtraction overflows. -/
theorem decimal_wire_form (a b : Decimal) :
    (a.ScaleFits → ∃ x n, decimal.toBytes a = .ok x ∧ (decimal.toBytes b = .ok x ↔ b.value = a.value) ∧
        a.normal = some n ∧ n.IsNormal ∧ n.value = a.value ∧
        ∀ limits : DecodeLimits, (TwosComplement.encode n.digits).length ≤ limits.maxLength.toNat →
          Decoder.Reads limits decimal.decode x n) ∧
      (¬a.ScaleFits → decimal.toBytes a = .error (.mapping .overflow)) := by
  refine ⟨fun fits => ?_, toBytes_decimal_of_overflow⟩
  obtain ⟨n, normal⟩ := Decimal.exists_normal fits
  have written := toBytes_decimal normal
  have same := @toBytes_decimal_eq_iff a b n normal
  rw [written] at same
  refine ⟨_, n, written, same, normal, Decimal.isNormal_of_normal normal, Decimal.value_of_normal normal, ?_⟩
  intro limits within
  have bound := Nat.lt_of_le_of_lt within limits.maxLength.toNat_lt
  have read := reads_decimal n.scale within (Varint.denotes_encode bound)
  rwa [TwosComplement.signedValue_encode] at read

/-- The number 1.5 has one encoding, with one trailing zero or without. -/
theorem decimal_wire_form_tenths :
    Decimal.ScaleFits ⟨150, 2⟩ ∧ ∃ x, decimal.toBytes ⟨150, 2⟩ = .ok x ∧ decimal.toBytes ⟨15, 1⟩ = .ok x := by
  have fits : Decimal.ScaleFits ⟨150, 2⟩ := by simp [Decimal.ScaleFits, Decimal.trailingZeros, Decimal.stripZeros]
  obtain ⟨x, n, written, same, -⟩ := (decimal_wire_form ⟨150, 2⟩ ⟨15, 1⟩).1 fits
  refine ⟨fits, x, written, same.mpr ?_⟩
  norm_num [Decimal.value, show (1 : BitVec 64).toInt = 1 from rfl, show (2 : BitVec 64).toInt = 2 from rfl]

/-- Ten under the least scale is not written. -/
theorem decimal_scale_overflows : decimal.toBytes ⟨10, BitVec.intMin 64⟩ = .error (.mapping .overflow) := by
  refine toBytes_decimal_of_overflow ?_
  have least : (BitVec.intMin 64).toInt = -2 ^ 63 := by decide
  simp [Decimal.ScaleFits, Decimal.trailingZeros, Decimal.stripZeros, least]

end TypedWire.Codec
