import TypedWire.Codec.Encode
import TypedWire.SizeEstimate

namespace TypedWire.Codec

def payloadSize (length : Nat) : Nat := Varint.encodedLength length + length

/-- The sizes of the parts of a value, in order. -/
def observe : {t : Ty} → Codec t → t.Value → Output Nat
  | _, .int _ w, _ => .emit w.bytes
  | _, .float p, _ => .emit p.width.bytes
  | _, .bool, _ => .emit 1
  | _, .unit, _ => .done
  | _, .never, v => v.elim
  | _, .text, v => .emit (payloadSize (Utf8.encode v).length)
  | _, .bytes, v => .emit (payloadSize v.length)
  | _, .compact name objection, v => .ofExcept ((Codec.compact name objection).encodedSize v) .emit
  | _, .derived _ codec toBase _, v =>
    match toBase v with
    | .ok base => codec.observe base
    | .error refusal => .fail (.mapping refusal)
  | _, .terse _ _ codec, v => .ofExcept (codec.encodedSize v) .emit
  | _, .seq _ codec, elements =>
    (Output.emit (Varint.encodedLength elements.length)).andThen (.concat codec.observe elements)
  | _, .map _ k v, entries =>
    (Output.emit (Varint.encodedLength entries.length)).andThen
      (.concat (fun entry => (k.observe entry.1).andThen (v.observe entry.2)) entries)
  | _, .option _, none => .emit 1
  | _, .option codec, some inner => (Output.emit 1).andThen (codec.observe inner)
  | _, .pair a b, v => (a.observe v.1).andThen (b.observe v.2)
  | _, .triple a b c, v => (a.observe v.1).andThen ((b.observe v.2.1).andThen (c.observe v.2.2))

/-- Whether the walk over a value takes a bounded number of steps. -/
def isCheap : {t : Ty} → Codec t → t.Value → Bool
  | _, .compact _ _, _ => false
  | _, .derived _ codec toBase _, v =>
    match toBase v with
    | .ok base => codec.isCheap base
    | .error _ => false
  | _, .terse _ _ _, _ => false
  | _, .seq _ _, _ => false
  | _, .map _ _ _, _ => false
  | _, .option _, none => true
  | _, .option codec, some inner => codec.isCheap inner
  | _, .pair a b, v => a.isCheap v.1 && b.isCheap v.2
  | _, .triple a b c, v => a.isCheap v.1 && b.isCheap v.2.1 && c.isCheap v.2.2
  | _, _, _ => true

def estimate {t : Ty} (codec : Codec t) (v : t.Value) : Except EncodeError SizeEstimate :=
  let walk := codec.observe v
  match walk.failure with
  | none => .ok (.ofUpdates walk.items)
  | some error => .error error

end TypedWire.Codec
