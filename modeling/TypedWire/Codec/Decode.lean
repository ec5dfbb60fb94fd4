import TypedWire.Codec
import TypedWire.Collection
import TypedWire.Source
import TypedWire.Utf8

/-! A codec reads the parts of a value in the order in which it writes them. Containers read a count and
take in as many elements, one after the other. -/

namespace TypedWire

def Decoder.mapped {α : Type} (result : Except String α) : Decoder α :=
  match result with
  | .ok value => pure value
  | .error text => throw (.mapping text)

def Decoder.text : Decoder String := do
  let count ← Decoder.length
  let start ← Decoder.offset
  match Utf8.decode (← Decoder.block count) with
  | .ok text => return text
  | .error fault => throw (.invalidUtf8 start fault)

/-- A 32-bit number in the form of a length. -/
def Decoder.compact : Decoder (Word .four) := do
  let value ← Decoder.varint
  if value < UInt32.size then return BitVec.ofNat 32 value
  else throw (.mapping s!"{value} exceeds u32")

def Decoder.gathered (shape : SeqShape) (t : Ty) (elements : List t.Value) : Decoder (List t.Value) :=
  match shape.gather t elements with
  | .ok container => pure container
  | .error mismatch => throw (.elementCount mismatch.expected mismatch.found)

def Decoder.entry {α β : Type} (key : Decoder α) (value : Decoder β) : Decoder (α × β) := do
  let k ← key.labeled "key"
  let v ← value.labeled "value"
  return (k, v)

/-- Reads a count and as many entries into `target`; a failure keeps the entries before it. -/
def Decoder.entriesInto (shape : MapShape) (k : Ty) {β : Type} (entry : Decoder (k.Value × β))
    (target : List (k.Value × β)) (source : Source) :
    (Except DecodeError Unit × List (k.Value × β)) × Source :=
  match Decoder.length.read source with
  | (.error error, after) => ((.error error, target), after)
  | (.ok count, after) =>
    let ((entries, failure), after) := entry.attempts count after
    ((match failure with
      | none => .ok ()
      | some error => .error error, shape.insertAll k target entries), after)

def Decoder.fill (shape : MapShape) (k : Ty) {β : Type} (entry : Decoder (k.Value × β)) :
    (count : Nat) → (map : List (k.Value × β)) → Decoder (List (k.Value × β))
  | 0, map => pure map
  | count + 1, map => do fill shape k entry count (shape.insert k map (← entry))

def Decoder.entries (shape : MapShape) (k : Ty) {β : Type} (entry : Decoder (k.Value × β)) :
    Decoder (List (k.Value × β)) := do
  entry.fill shape k (← Decoder.length) []

namespace Codec

def decode : {t : Ty} → Codec t → Decoder t.Value
  | _, .int _ w => Decoder.word w
  | _, .float p => Decoder.word p.width
  | _, .bool => Decoder.flag
  | _, .unit => pure ()
  | _, .never => throw .uninhabited
  | _, .text => Decoder.text
  | _, .bytes => do Decoder.block (← Decoder.length)
  | _, .compact _ _ => Decoder.compact
  | _, .derived _ codec _ fromBase => do Decoder.mapped (fromBase (← codec.decode))
  | _, .terse _ _ codec => codec.decode
  | .seq _ t, .seq shape codec => do
    let elements ← Decoder.replicate (← Decoder.length) codec.decode
    Decoder.gathered shape t elements
  | .map _ t _, .map shape k v => Decoder.entries shape t (Decoder.entry k.decode v.decode)
  | _, .option codec => do
    if ← Decoder.flag then return some (← codec.decode.labeled "value") else return none
  | _, .pair a b => do
    let x ← a.decode.labeled "first"
    let y ← b.decode.labeled "second"
    return (x, y)
  | _, .triple a b c => do
    let x ← a.decode.labeled "first"
    let y ← b.decode.labeled "second"
    let z ← c.decode.labeled "third"
    return (x, y, z)

def read {t : Ty} (codec : Codec t) (source : Source) : Except DecodeError t.Value × Source :=
  codec.decode.read source

def readInto {k v : Ty} (shape : MapShape) (key : Codec k) (value : Codec v)
    (target : List (k.Value × v.Value)) (source : Source) :
    (Except DecodeError Unit × List (k.Value × v.Value)) × Source :=
  (Decoder.entry key.decode value.decode).entriesInto shape k target source

/-- The one value that `bytes` encodes. -/
def ofBytes {t : Ty} (codec : Codec t) (bytes : List Byte) : Except DecodeError t.Value :=
  match codec.read (.ofBytes bytes .standard) with
  | (.error error, _) => .error error
  | (.ok value, after) =>
    match after.reader.held with
    | [] => .ok value
    | left => .error (.trailingBytes after.offset left.length)

end Codec
end TypedWire
