import TypedWire.Codec.Encode
import TypedWire.StructuralValue
import TypedWire.Ty.Order

namespace TypedWire.Codec

def structural : {t : Ty} → Codec t → t.Value → Except EncodeError StructuralValue
  | _, .int _ w, v => .ok (.bytes (bigEndian w.bytes v.toNat))
  | _, .float p, v => .ok (.bytes (bigEndian p.width.bytes v.toNat))
  | _, .bool, v => .ok (.bytes [Emission.flagByte v])
  | _, .unit, _ => .ok (.bytes [])
  | _, .never, v => v.elim
  | _, .text, v => .ok (.bytes (Utf8.encode v))
  | _, .bytes, v => .ok (.bytes v)
  | _, .compact name objection, v => ((Codec.compact name objection).toBytes v).map .bytes
  | _, .derived _ codec toBase _, v =>
    match toBase v with
    | .ok base => codec.structural base
    | .error refusal => .error (.mapping refusal)
  | _, .terse _ _ codec, v => (codec.toBytes v).map .bytes
  | _, .seq shape codec, elements => do
    let parts ← elements.mapM codec.structural
    return if shape.order = .hashed then .setOf parts else .seq parts
  | _, .map _ k v, entries => do
    let parts ← entries.mapM fun entry => do
      let key ← k.structural entry.1
      let value ← v.structural entry.2
      return (key, value)
    return .mapOf parts
  | _, .option _, none => .ok .absent
  | _, .option codec, some inner => (codec.structural inner).map .present
  | _, .pair a b, v => do
    let x ← a.structural v.1
    let y ← b.structural v.2
    return .tuple [x, y]
  | _, .triple a b c, v => do
    let x ← a.structural v.1
    let y ← b.structural v.2.1
    let z ← c.structural v.2.2
    return .tuple [x, y, z]

/-- Compares natively where equality of values is equality of encodings, and by stand-ins elsewhere. -/
def matching {t : Ty} (codec : Codec t) (a b : t.Value) : Except EncodeError Bool :=
  if codec.equalityConsistent then .ok (t.equal a b)
  else do
    let x ← codec.structural a
    let y ← codec.structural b
    return x == y

end TypedWire.Codec
