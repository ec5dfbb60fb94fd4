import TypedWire.Codec.Decode
import TypedWire.Reservation

/-! Decoding as it asks for memory: `run` is `decode` with every request in its place. -/

namespace TypedWire

namespace Run

def text : Run String := do
  let count ← of Decoder.length
  let start ← of Decoder.offset
  match Utf8.decode (← block count) with
  | .ok text => return text
  | .error fault => throw (.invalidUtf8 start fault)

def entry {α β : Type} (key : Run α) (value : Run β) : Run (α × β) := do
  let k ← key.labeled "key"
  let v ← value.labeled "value"
  return (k, v)

variable {β : Type} (shape : MapShape) (k : Ty) (entry : Run (k.Value × β))

def fill : (count : Nat) → (map : List (k.Value × β)) → Run (List (k.Value × β))
  | 0, map => pure map
  | count + 1, map => do fill count (shape.insert k map (← entry))

def fillInto : (count : Nat) → (map : List (k.Value × β)) → Source →
    Option ((Except DecodeError Unit × List (k.Value × β)) × Source)
  | 0, map, source => some ((.ok (), map), source)
  | count + 1, map, source =>
    match entry source with
    | none => none
    | some (.error error, after) => some ((.error error, map), after)
    | some (.ok entry, after) => fillInto count (shape.insert k map entry) after

end Run

namespace Codec

variable (layout : Layout)

def run : {t : Ty} → Codec t → Run t.Value
  | _, .int _ w => Run.of (Decoder.word w)
  | _, .float p => Run.of (Decoder.word p.width)
  | _, .bool => Run.of Decoder.flag
  | _, .unit => pure ()
  | _, .never => throw .uninhabited
  | _, .text => Run.text
  | _, .bytes => do Run.block (← Run.of Decoder.length)
  | _, .compact _ _ => Run.of Decoder.compact
  | _, .derived _ codec _ fromBase => do Run.of (Decoder.mapped (fromBase (← run codec)))
  | _, .terse _ _ codec => run codec
  | .seq _ t, .seq shape codec => do
    let count ← Run.of Decoder.length
    Run.reserve (layout.elements shape t) count
    let elements ← Run.collect (run codec) count []
    Run.of (Decoder.gathered shape t elements)
  | .map _ t u, .map shape k v => do
    let count ← Run.of Decoder.length
    Run.reserve (layout.entries shape t u) count
    Run.fill shape t (Run.entry (run k) (run v)) count []
  | _, .option codec => do
    if ← Run.of Decoder.flag then return some (← (run codec).labeled "value") else return none
  | _, .pair a b => do
    let x ← (run a).labeled "first"
    let y ← (run b).labeled "second"
    return (x, y)
  | _, .triple a b c => do
    let x ← (run a).labeled "first"
    let y ← (run b).labeled "second"
    let z ← (run c).labeled "third"
    return (x, y, z)

/-- Reads entries into `target`; those that came before a failure stay. -/
def runInto {k v : Ty} (shape : MapShape) (key : Codec k) (value : Codec v) (target : List (k.Value × v.Value))
    (source : Source) : Option ((Except DecodeError Unit × List (k.Value × v.Value)) × Source) :=
  match Decoder.length.read source with
  | (.error error, after) => some ((.error error, target), after)
  | (.ok count, after) => Run.fillInto shape k (Run.entry (run layout key) (run layout value)) count target after

end Codec
end TypedWire
