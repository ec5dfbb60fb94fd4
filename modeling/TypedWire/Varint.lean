import TypedWire.Byte

/-! Groups of seven bits, lowest group first, where every byte but the last has its high bit set. `decode`
accepts every such string for a number below `2 ^ 64` in at most `maxLength` bytes, shortest or not. -/

namespace TypedWire

-- Powers are those of `Nat` and `Int` themselves, whichever other instances are in scope.
attribute [local instance (high)] instPowNat

inductive VarintError where
  | truncated
  | overflow
deriving DecidableEq, Repr

def VarintError.message : VarintError → String
  | .truncated => "varint truncated before its final byte"
  | .overflow => "varint overflows u64"

namespace Varint

def maxLength : Nat := 10

/-- The groups of `n`, lowest first, in as few bytes as possible. -/
def encode (n : Nat) : List Byte :=
  if n < 128 then [BitVec.ofNat 8 n] else BitVec.ofNat 8 (n % 128 + 128) :: encode (n / 128)
termination_by n
decreasing_by omega

/-- How many bytes `encode` takes, found from the number of binary digits. -/
def encodedLength (n : Nat) : Nat := if n = 0 then 1 else (n.log2 + 7) / 7

/-- Reads on after `index` groups that add up to `value`. The tenth group sits at bit 63, so only
its lowest bit fits a 64-bit number. -/
def decodeFrom : (index value : Nat) → List Byte → Except VarintError (Nat × Nat)
  | index, _, [] => .error (if maxLength ≤ index then .overflow else .truncated)
  | index, value, byte :: rest =>
    let group := byte.toNat % 128
    if maxLength ≤ index then .error .overflow
    else if index + 1 = maxLength ∧ 1 < group then .error .overflow
    else if byte.toNat < 128 then .ok (value + group * 2 ^ (7 * index), index + 1)
    else decodeFrom (index + 1) (value + group * 2 ^ (7 * index)) rest

def decode (bytes : List Byte) : Except VarintError (Nat × Nat) := decodeFrom 0 0 bytes

theorem encode_ne_nil (n : Nat) : encode n ≠ [] := by
  rw [encode]; split <;> simp

theorem encode_of_lt {n : Nat} (small : n < 128) : encode n = [BitVec.ofNat 8 n] := by
  rw [encode, if_pos small]

theorem encode_of_ge {n : Nat} (large : 128 ≤ n) :
    encode n = BitVec.ofNat 8 (n % 128 + 128) :: encode (n / 128) := by
  rw [encode, if_neg (by omega)]

end Varint
end TypedWire
