import TypedWire.Codec.Derived
import TypedWire.Proofs.Encoding
import TypedWire.Proofs.Scanning
import Mathlib.Tactic.Linarith
import Mathlib.Tactic.Ring

/-! The first byte of a numeral counts with its sign and the others without, so a byte that repeats the sign
may stand in front. The shortest numeral of an integer has none of these. -/

namespace TypedWire.TwosComplement

/-- The integer that a numeral stands for: the first byte has a sign, the others are digits. -/
def signedValue : List Byte → Int
  | [] => 0
  | first :: rest => first.toInt * 256 ^ rest.length + ofBigEndian rest

/-- The byte that repeats the sign of `first`. -/
def signByte (first : Byte) : Byte := if first.msb then 0xFF else 0x00

/-- A numeral has some byte, and the first one does not only repeat the sign of the next. -/
def Minimal : List Byte → Prop
  | [] => False
  | [_] => True
  | first :: second :: _ => first ≠ signByte second

instance : (bytes : List Byte) → Decidable (Minimal bytes)
  | [] => inferInstanceAs (Decidable False)
  | [_] => inferInstanceAs (Decidable True)
  | first :: second :: _ => inferInstanceAs (Decidable (first ≠ signByte second))

/-- The sign of a byte is one of the next higher place. -/
theorem toInt_eq_signByte (byte : Byte) : byte.toInt = byte.toNat + (signByte byte).toInt * 256 := by
  rw [BitVec.toInt_eq_msb_cond, signByte]
  cases byte.msb
  · exact (Int.add_zero _).symm
  · rfl

/-- Up to the places that a numeral has, its sign makes no difference. -/
theorem signedValue_emod (bytes : List Byte) :
    signedValue bytes % (256 ^ bytes.length : Nat) = ofBigEndian bytes := by
  cases bytes with
  | nil => rfl
  | cons first rest =>
    have digits := ofBigEndian_lt (first :: rest)
    have split : signedValue (first :: rest) =
        ofBigEndian (first :: rest) + (256 ^ (first :: rest).length : Nat) * (signByte first).toInt := by
      rw [signedValue, toInt_eq_signByte, ofBigEndian_cons, List.length_cons, Nat.pow_succ]
      push_cast
      ring
    rw [split, Int.add_mul_emod_self_left]
    exact Int.emod_eq_of_lt (Int.natCast_nonneg _) (Int.ofNat_lt.mpr digits)

theorem signedValue_bounds {bytes : List Byte} (nonempty : bytes ≠ []) :
    -(256 ^ bytes.length : Nat) ≤ 2 * signedValue bytes ∧ 2 * signedValue bytes < (256 ^ bytes.length : Nat) := by
  cases bytes with
  | nil => exact absurd rfl nonempty
  | cons first rest =>
    have least : -128 ≤ first.toInt := BitVec.le_toInt first
    have most : first.toInt ≤ 127 := Int.le_of_lt_add_one (BitVec.toInt_lt (x := first))
    have digits : (ofBigEndian rest : Int) < 256 ^ rest.length := by exact_mod_cast ofBigEndian_lt rest
    have positive : (0 : Int) ≤ ofBigEndian rest := Int.natCast_nonneg _
    rw [signedValue, List.length_cons, Nat.pow_succ]
    push_cast
    constructor <;> nlinarith

theorem decode_eq_signedValue (bytes : List Byte) : decode bytes = signedValue bytes := by
  by_cases empty : bytes = []
  · rw [empty, decode_nil]
    rfl
  · obtain ⟨least, most⟩ := signedValue_bounds empty
    rw [decode, ← signedValue_emod, Int.emod_bmod]
    exact Int.bmod_eq_of_le_mul_two (by omega) (by omega)

theorem signedValue_encode (n : Int) : signedValue (encode n) = n := by
  rw [← decode_eq_signedValue, decode_encode]

/-- Of one length, an integer has one numeral. -/
theorem eq_of_signedValue {a b : List Byte} (lengths : a.length = b.length)
    (values : signedValue a = signedValue b) : a = b := by
  have digits : ofBigEndian a = ofBigEndian b := by
    have residues := signedValue_emod a
    rw [values, lengths, signedValue_emod b] at residues
    exact (Int.ofNat.inj residues).symm
  rw [← bigEndian_ofBigEndian a, digits, lengths, bigEndian_ofBigEndian]

theorem signByte_signByte (first : Byte) : signByte (signByte first) = signByte first := by
  rw [signByte.eq_def first]
  cases first.msb <;> rfl

theorem signedValue_signByte (first : Byte) (rest : List Byte) :
    signedValue (signByte first :: first :: rest) = signedValue (first :: rest) := by
  rw [signedValue, signedValue, toInt_eq_signByte first, ofBigEndian_cons, List.length_cons]
  push_cast
  ring

/-- Bytes that repeat the sign may stand in front of a numeral. -/
theorem signedValue_extended (count : Nat) (first : Byte) (rest : List Byte) :
    signedValue (List.replicate count (signByte first) ++ first :: rest) = signedValue (first :: rest) := by
  induction count with
  | zero => rfl
  | succ count ih =>
    rw [← ih, List.replicate_succ, List.cons_append]
    cases count with
    | zero => exact signedValue_signByte first rest
    | succ count =>
      have next := signedValue_signByte (signByte first) (List.replicate count (signByte first) ++ first :: rest)
      rwa [signByte_signByte] at next

/-- No numeral is shorter than the shortest one. -/
theorem width_le_length {bytes : List Byte} (nonempty : bytes ≠ []) :
    width (signedValue bytes) ≤ bytes.length := by
  have positive := List.length_pos_iff.mpr nonempty
  have short := width_decode bytes
  rw [decode_eq_signedValue] at short
  omega

/-- A numeral is the shortest one of its integer, with bytes in front that repeat the sign. -/
theorem eq_extended {bytes : List Byte} (nonempty : bytes ≠ []) :
    ∃ count first rest, encode (signedValue bytes) = first :: rest ∧
      bytes = List.replicate count (signByte first) ++ first :: rest := by
  obtain ⟨first, rest, shortest⟩ := List.exists_cons_of_ne_nil (encode_ne_nil (signedValue bytes))
  have sized := length_encode (signedValue bytes)
  have least := width_le_length nonempty
  rw [shortest] at sized
  refine ⟨bytes.length - width (signedValue bytes), first, rest, shortest, eq_of_signedValue ?_ ?_⟩
  · rw [List.length_append, List.length_replicate, sized]
    omega
  · rw [signedValue_extended, ← shortest, signedValue_encode]

/-- The shortest numeral is the one in which no byte only repeats the sign. -/
theorem encode_signedValue_iff (bytes : List Byte) : encode (signedValue bytes) = bytes ↔ Minimal bytes := by
  constructor
  · intro shortest
    rcases bytes with _ | ⟨first, _ | ⟨second, rest⟩⟩
    · exact encode_ne_nil _ shortest
    · trivial
    · intro repeats
      have sized := congrArg List.length shortest
      have shorter := width_le_length (List.cons_ne_nil second rest)
      rw [length_encode, repeats, signedValue_signByte, List.length_cons] at sized
      omega
  · intro minimal
    have nonempty : bytes ≠ [] := by
      rintro rfl
      exact minimal
    obtain ⟨count, first, rest, shortest, extended⟩ := eq_extended nonempty
    rcases count with _ | _ | count
    · rw [shortest, extended]
      rfl
    · rw [extended] at minimal
      exact absurd rfl minimal
    · rw [extended] at minimal
      exact absurd (signByte_signByte first).symm minimal

theorem minimal_encode (n : Int) : Minimal (encode n) := by
  rw [← encode_signedValue_iff, signedValue_encode]

end TypedWire.TwosComplement

namespace TypedWire.Codec

open TwosComplement

theorem toBytes_integer (n : Int) :
    integer.toBytes n = .ok (Varint.encode (TwosComplement.encode n).length ++ TwosComplement.encode n) :=
  toBytes_payload _

/-- A numeral is read behind its length for the integer that it stands for. -/
theorem reads_integer {limits : DecodeLimits} {spelling payload : List Byte}
    (within : payload.length ≤ limits.maxLength.toNat) (denotes : Varint.Denotes spelling payload.length) :
    Decoder.Reads limits integer.decode (spelling ++ payload) (signedValue payload) := by
  have read := ((Decoder.reads_length within denotes).bind (Decoder.reads_block payload)).map TwosComplement.decode
  rw [decode_eq_signedValue] at read
  exact read

/-- A numeral above the limit is refused at its length. -/
theorem refuses_integer {limits : DecodeLimits} {spelling : List Byte} {n : Nat} (above : limits.maxLength.toNat < n)
    (denotes : Varint.Denotes spelling n) : Decoder.Refuses limits integer.decode spelling 0 n :=
  ((Decoder.refuses_length above denotes).bind Decoder.block).bind _

/-- An integer is written as its shortest numeral behind the shortest prefix for its length. No other numeral of the
integer is as short; no byte of it only repeats the sign, and zero has one byte. Every numeral that the limit admits
is read, behind its length, for the integer that it stands for, and longer ones are refused; bytes that repeat the
sign make no difference to the integer, and the numeral without bytes stands for zero. What a numeral is read as is
written as that numeral again exactly if it has some byte and none that only repeats the sign. -/
theorem integer_wire_form :
    (∀ n : Int, ∃ payload, integer.toBytes n = .ok (Varint.encode payload.length ++ payload) ∧
      payload ≠ [] ∧ signedValue payload = n ∧
      (∀ other, other ≠ [] → signedValue other = n →
        payload.length ≤ other.length ∧ (other.length = payload.length → other = payload)) ∧
      Minimal payload ∧ (n = 0 → payload = [0x00]) ∧
      ∀ spelling, Varint.Denotes spelling payload.length →
        (Varint.encode payload.length).length ≤ spelling.length) ∧
    (∀ (limits : DecodeLimits) (spelling payload : List Byte), Varint.Denotes spelling payload.length →
      (payload.length ≤ limits.maxLength.toNat →
        Decoder.Reads limits integer.decode (spelling ++ payload) (signedValue payload)) ∧
      (limits.maxLength.toNat < payload.length →
        Decoder.Refuses limits integer.decode spelling 0 payload.length)) ∧
    (∀ (count : Nat) (first : Byte) (rest : List Byte),
      signedValue (List.replicate count (signByte first) ++ first :: rest) = signedValue (first :: rest)) ∧
    signedValue [] = 0 ∧
    ∀ payload : List Byte,
      integer.toBytes (signedValue payload) = .ok (Varint.encode payload.length ++ payload) ↔ Minimal payload := by
  refine ⟨fun n => ?_, fun limits spelling payload denotes => ⟨fun within => reads_integer within denotes,
    fun above => refuses_integer above denotes⟩, signedValue_extended, rfl, fun payload => ?_⟩
  · refine ⟨TwosComplement.encode n, toBytes_integer n, encode_ne_nil n, signedValue_encode n, ?_,
      minimal_encode n, ?_, ?_⟩
    · intro other nonempty stands
      have shortest := width_le_length nonempty
      rw [stands, ← length_encode] at shortest
      refine ⟨shortest, fun lengths => eq_of_signedValue lengths ?_⟩
      rw [stands, signedValue_encode]
    · rintro rfl
      decide
    · exact fun spelling denotes => denotes.length_le
  · rw [toBytes_integer, Except.ok.injEq, ← encode_signedValue_iff]
    constructor
    · exact fun same => (Varint.encode_append_inj same).2
    · intro same
      rw [same]

/-- The integers on both sides of where a second byte is needed. -/
theorem integer_wire_form_boundary :
    integer.toBytes (-128) = .ok [1, 0x80] ∧ integer.toBytes (-129) = .ok [2, 0xFF, 0x7F] ∧
      integer.toBytes 128 = .ok [2, 0x00, 0x80] ∧
      Decoder.Reads .standard integer.decode ([0x83, 0] ++ [0xFF, 0xFF, 0x80]) (-128) ∧
      integer.toBytes (-128) ≠ .ok [3, 0xFF, 0xFF, 0x80] := by
  obtain ⟨-, read, extended, -, written⟩ := integer_wire_form
  have lengths (n : Nat) (small : n < 128) : Varint.encode n = [BitVec.ofNat 8 n] := Varint.encode_of_lt small
  have one := (written [0x80]).mpr trivial
  have two := (written [0xFF, 0x7F]).mpr (by decide)
  have three := (written [0x00, 0x80]).mpr (by decide)
  have four := (written [0xFF, 0xFF, 0x80]).not.mpr (by decide)
  have same : signedValue [0xFF, 0xFF, 0x80] = -128 := extended 2 0x80 []
  have within : 3 ≤ DecodeLimits.standard.maxLength.toNat := by decide
  have back := (read .standard [0x83, 0] [0xFF, 0xFF, 0x80] rfl).1 within
  rw [lengths _ (by decide)] at one two three four
  rw [same] at back four
  exact ⟨one, two, three, back, four⟩

end TypedWire.Codec
