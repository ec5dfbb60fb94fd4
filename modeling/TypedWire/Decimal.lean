namespace TypedWire

-- Powers are those of `Nat` and `Int` themselves, whichever other instances are in scope.
attribute [local instance (high)] instPowNat

/-- The number `digits * 10 ^ (-scale)`. -/
structure Decimal where
  digits : Int
  scale : BitVec 64
deriving DecidableEq, Repr

namespace Decimal

/-- `n` without its trailing zero digits, and how many there were; zero has none to lose. -/
def stripZeros (n : Nat) : Nat × Nat :=
  if n ≠ 0 ∧ n % 10 = 0 then
    let (stripped, count) := stripZeros (n / 10)
    (stripped, count + 1)
  else (n, 0)
termination_by n
decreasing_by omega

/-- How many decimal digits `n` has; zero has none. -/
def digitCount (n : Nat) : Nat := if n = 0 then 0 else digitCount (n / 10) + 1
termination_by n
decreasing_by omega

/-- `scale - count`, unless that is below the least scale. -/
def lower (scale : BitVec 64) (count : Nat) : Option (BitVec 64) :=
  if (BitVec.intMin 64).toInt ≤ scale.toInt - count then some (BitVec.ofInt 64 (scale.toInt - count)) else none

/-- Zero has scale zero, and any other number has digits that ten does not divide. There is none where the scale has
no room for the zeros to be taken off. -/
def normal (d : Decimal) : Option Decimal :=
  if d.digits = 0 then some ⟨0, 0⟩
  else
    let (stripped, count) := stripZeros d.digits.natAbs
    (lower d.scale count).map fun scale => ⟨d.digits.sign * stripped, scale⟩

/-- Compares `m * 10 ^ (-s)` with `n * 10 ^ (-t)` for positive `m` and `n`. Where the first digits
stand in different places these decide; otherwise the scales differ as much as the digit counts. -/
def orderMagnitudes (m : Nat) (s : Int) (n : Nat) (t : Int) : Ordering :=
  match compare ((digitCount m : Int) - s) ((digitCount n : Int) - t) with
  | .eq => compare (m * 10 ^ (t - s).toNat) (n * 10 ^ (s - t).toNat)
  | decided => decided

def order (a b : Decimal) : Ordering :=
  match compare a.digits.sign b.digits.sign with
  | .eq =>
    if 0 < a.digits then orderMagnitudes a.digits.natAbs a.scale.toInt b.digits.natAbs b.scale.toInt
    else if a.digits < 0 then orderMagnitudes b.digits.natAbs b.scale.toInt a.digits.natAbs a.scale.toInt
    else .eq
  | decided => decided

end Decimal
end TypedWire
