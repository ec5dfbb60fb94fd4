import TypedWire.Codec
import TypedWire.Sink
import TypedWire.Utf8

/-! What a component of a tuple, an option or a map gives off carries the label of the component. Sequences,
derived codecs and terse ones add none. -/

namespace TypedWire.Codec

def encode : {t : Ty} → Codec t → t.Value → Emission
  | _, .int _ w, v => .word w v
  | _, .float p, v => .word p.width v
  | _, .bool, v => .flag v
  | _, .unit, _ => .done
  | _, .never, v => v.elim
  | _, .text, v => .payload (Utf8.encode v)
  | _, .bytes, v => .payload v
  | _, .compact _ _, v => .varint v.toNat
  | _, .derived _ codec toBase _, v =>
    match toBase v with
    | .ok base => codec.encode base
    | .error refusal => .fail (.mapping refusal)
  | _, .terse _ _ codec, v => codec.encode v
  | _, .seq _ codec, elements =>
    (Emission.lengthPrefix elements.length).andThen (.concat codec.encode elements)
  | _, .map _ k v, entries =>
    (Emission.lengthPrefix entries.length).andThen (.concat
      (fun entry => (Emission.labeled "key" (k.encode entry.1)).andThen
        (Emission.labeled "value" (v.encode entry.2))) entries)
  | _, .option _, none => .flag false
  | _, .option codec, some inner =>
    (Emission.flag true).andThen (Emission.labeled "value" (codec.encode inner))
  | _, .pair a b, v =>
    (Emission.labeled "first" (a.encode v.1)).andThen (Emission.labeled "second" (b.encode v.2))
  | _, .triple a b c, v =>
    (Emission.labeled "first" (a.encode v.1)).andThen
      ((Emission.labeled "second" (b.encode v.2.1)).andThen (Emission.labeled "third" (c.encode v.2.2)))

def write {t : Ty} (codec : Codec t) (v : t.Value) (sink : Sink) : Except EncodeError Unit × Sink :=
  sink.play (codec.encode v)

def toBytes {t : Ty} (codec : Codec t) (v : t.Value) : Except EncodeError (List Byte) :=
  (codec.encode v).toBytes

/-- The length of the encoding of a value, found without keeping the bytes. -/
def encodedSize {t : Ty} (codec : Codec t) (v : t.Value) : Except EncodeError Nat :=
  (codec.encode v).size

end TypedWire.Codec
