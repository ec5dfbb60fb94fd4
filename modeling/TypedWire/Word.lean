namespace TypedWire

-- Powers are those of `Nat` and `Int` themselves, whichever other instances are in scope.
attribute [local instance (high)] instPowNat

inductive Sign where
  | signed
  | unsigned
deriving DecidableEq, Repr

inductive Width where
  | one
  | two
  | four
  | eight
deriving DecidableEq, Repr

def Width.bytes : Width → Nat
  | .one => 1
  | .two => 2
  | .four => 4
  | .eight => 8

def Width.bits (w : Width) : Nat := 8 * w.bytes

abbrev Word (w : Width) := BitVec w.bits

def Sign.value {n : Nat} (sign : Sign) (bits : BitVec n) : Int :=
  match sign with
  | .signed => bits.toInt
  | .unsigned => bits.toNat

inductive Precision where
  | single
  | double
deriving DecidableEq, Repr

namespace Precision

def width : Precision → Width
  | .single => .four
  | .double => .eight

/-- The pattern of positive infinity, below which every finite magnitude lies. -/
def infinity : Precision → Nat
  | .single => 0x7F800000
  | .double => 0x7FF0000000000000

def magnitude (p : Precision) (bits : Word p.width) : Nat := bits.toNat % 2 ^ (p.width.bits - 1)

def isNaN (p : Precision) (bits : Word p.width) : Bool := p.infinity < p.magnitude bits

/-- Equality of floating-point numbers, which is not equality of patterns. -/
def equal (p : Precision) (a b : Word p.width) : Bool :=
  !p.isNaN a && !p.isNaN b && (a == b || (p.magnitude a == 0 && p.magnitude b == 0))

end Precision
end TypedWire
