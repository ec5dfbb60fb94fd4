import TypedWire.Byte

namespace TypedWire.TwosComplement

-- Powers are those of `Nat` and `Int` themselves, whichever other instances are in scope.
attribute [local instance (high)] instPowNat

def bitLength (n : Nat) : Nat := if n = 0 then 0 else n.log2 + 1

/-- The natural whose binary digits stand beside the sign bit: `n` itself, or `-n - 1` below zero. -/
def magnitude : Int → Nat
  | .ofNat n => n
  | .negSucc n => n

/-- How many bytes hold the digits of `n` and one sign bit. -/
def width (n : Int) : Nat := bitLength (magnitude n) / 8 + 1

/-- The shortest two's-complement numeral of `n`. -/
def encode (n : Int) : List Byte := bigEndian (width n) (n % (256 : Int) ^ width n).toNat

/-- The integer that a two's-complement numeral stands for: its value as a natural, less
`256 ^ length` where the sign bit is set. -/
def decode (bytes : List Byte) : Int := Int.bmod (ofBigEndian bytes) (256 ^ bytes.length)

theorem encode_ne_nil (n : Int) : encode n ≠ [] := by
  intro empty
  have := congrArg List.length empty
  simp [encode, width] at this

@[simp] theorem length_encode (n : Int) : (encode n).length = width n := by simp [encode]

@[simp] theorem decode_nil : decode [] = 0 := by decide

end TypedWire.TwosComplement
