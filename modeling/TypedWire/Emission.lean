import TypedWire.Output
import TypedWire.Varint
import TypedWire.Word

/-! What encoding a value gives off, wherever that is written. -/

namespace TypedWire

structure Write where
  /-- The labels of the components around it, from the outermost inwards. -/
  path : List String
  /-- A stream takes these in one go or fails. -/
  data : List Byte
deriving DecidableEq, Repr

abbrev Emission := Output Write

namespace Emission

def raw (data : List Byte) : Emission := .emit ⟨[], data⟩

def word (w : Width) (value : Word w) : Emission := raw (bigEndian w.bytes value.toNat)

def flagByte (value : Bool) : Byte := if value then 1 else 0

def flag (value : Bool) : Emission := raw [flagByte value]

def varint (value : Nat) : Emission := raw (Varint.encode value)

def lengthPrefix (length : Nat) : Emission := varint length

def payload (data : List Byte) : Emission := (lengthPrefix data.length).andThen (raw data)

def labeled (label : String) (emission : Emission) : Emission :=
  ⟨emission.items.map fun write => ⟨label :: write.path, write.data⟩,
    emission.failure.map (.labeled label)⟩

def bytes (emission : Emission) : List Byte := emission.items.flatMap (·.data)

def toBytes (emission : Emission) : Except EncodeError (List Byte) :=
  match emission.failure with
  | none => .ok emission.bytes
  | some error => .error error

/-- The greatest 64-bit number, at which counters stop. -/
def counterLimit : Nat := UInt64.size - 1

/-- Counted in a 64-bit register that stops at its greatest value. -/
def size (emission : Emission) : Except EncodeError Nat :=
  match emission.failure with
  | none => .ok (emission.items.foldl (fun count write => min (count + write.data.length) counterLimit) 0)
  | some error => .error error

end Emission
end TypedWire
