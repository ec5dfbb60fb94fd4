import TypedWire.Codec.Derived
import TypedWire.Collection
import TypedWire.Utf8

/-! Codecs made to measure, which no type has by default. -/

namespace TypedWire.Codec.Bespoke

def halve (v : Word .four) : Except Refusal (Word .four) :=
  if v.toInt % 2 = 0 then .ok (BitVec.ofInt 32 (v.toInt / 2)) else .error (.told s!"odd value {v.toInt}")

def double (half : Word .four) : Except String (Word .four) :=
  let twice := 2 * half.toInt
  if Int32.minValue.toInt ≤ twice ∧ twice ≤ Int32.maxValue.toInt then .ok (BitVec.ofInt 32 twice)
  else .error s!"{half.toInt} doubled overflows"

def even : Codec (.int .signed .four) := .derived "EvenCodec" (.int .signed .four) halve double

def widen (upper : Byte) : Except String Byte :=
  if upper.toNat < 16 then .ok (upper <<< 4) else .error s!"nibble {upper.toNat} out of range"

def nibble : Codec .byte := .derived "NibbleCodec" (.int .unsigned .one) (fun v => .ok (v >>> 4)) widen

def spell (bytes : List Byte) : Except String String :=
  match Utf8.decode bytes with
  | .ok spelled => .ok spelled
  | .error _ => .error "not text"

def rawText : Codec .text := .derived "RawStringCodec" .bytes (fun text => .ok (Utf8.encode text)) spell

def frozenSet : Codec (.seq .sortedSet .byte) :=
  .derived "FrozenSetCodec" (.seq .hashSet (.int .unsigned .one)) (fun set => .ok set)
    fun elements => .ok (elements.foldl (fun set x => Sorted.insert (Ty.order .byte) x set) [])

def unpromised : Codec (.int .unsigned .four) := .compact "OpaqueCodec" (some "opaque payload")

/-- A new type with the values of bytes, which registers a stand-in for itself while its codec is
built. -/
def selfRegistering : Ty := .newtype ⟨"SelfReg", "LateCodec", some "EarlyCodec"⟩ .byte

end TypedWire.Codec.Bespoke
