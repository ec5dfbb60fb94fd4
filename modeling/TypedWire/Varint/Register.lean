import TypedWire.Varint

/-! Length prefixes in 64-bit registers. A write outside the buffer fails, and bits that a shift moves out
of the register are lost; no write does, and no bit is. -/

namespace TypedWire.Varint.Register

abbrev Buffer := Vector Byte maxLength

def store (buffer : Buffer) (index : Nat) (byte : Byte) : Option Buffer :=
  if inside : index < maxLength then some (buffer.set index byte inside) else none

/-- Shifts `value` out into the buffer behind the `used` bytes that are there; gives the buffer and how much
of it is used. -/
def encodeFrom (value : BitVec 64) (buffer : Buffer) (used : Nat) : Option (Buffer × Nat) :=
  let group : Byte := (value &&& 0x7F).setWidth 8
  let rest := value >>> 7
  if rest = 0 then (store buffer used group).map fun stored => (stored, used + 1)
  else (store buffer used (group ||| 0x80)).bind fun stored => encodeFrom rest stored (used + 1)
termination_by value.toNat
decreasing_by
  have more : (value >>> 7).toNat ≠ 0 := fun zero => by
    have : value >>> 7 = 0 := BitVec.eq_of_toNat_eq zero
    contradiction
  rw [BitVec.toNat_ushiftRight, Nat.shiftRight_eq_div_pow] at more ⊢
  omega

def encode (value : BitVec 64) : Option (Buffer × Nat) := encodeFrom value (Vector.replicate maxLength 0) 0

def encodedLength (value : BitVec 64) : Nat := if value = 0 then 1 else (64 - value.clz.toNat + 6) / 7

def decodeFrom : (index : Nat) → (value : BitVec 64) → List Byte → Except VarintError (BitVec 64 × Nat)
  | index, _, [] => .error (if maxLength ≤ index then .overflow else .truncated)
  | index, value, byte :: rest =>
    let group : BitVec 64 := (byte &&& 0x7F).setWidth 64
    let shift := 7 * index
    if maxLength ≤ index then .error .overflow
    else if shift = 63 ∧ 1 < group then .error .overflow
    else if byte &&& 0x80 = 0 then .ok (value ||| group <<< shift, index + 1)
    else decodeFrom (index + 1) (value ||| group <<< shift) rest

def decode (bytes : List Byte) : Except VarintError (BitVec 64 × Nat) := decodeFrom 0 0 bytes

end TypedWire.Varint.Register
