import TypedWire.Failure
import TypedWire.Ty

/-! A codec is a tree of leaves and combinators, and what codecs do is recursion on the tree. A derived
codec writes a type as another one, through mappings that may refuse values. -/

namespace TypedWire

inductive Codec : Ty → Type where
  | int (sign : Sign) (width : Width) : Codec (.int sign width)
  | float (precision : Precision) : Codec (.float precision)
  | bool : Codec .bool
  | unit : Codec .unit
  | never : Codec .never
  | text : Codec .text
  | bytes : Codec (.seq .vector .byte)
  /-- Stand-ins and sizes are found by encoding. -/
  | compact (name : String) (objection : Option String) : Codec (.int .unsigned .four)
  /-- A type written as another one. Either mapping may refuse a value. -/
  | derived {base target : Ty} (name : String) (codec : Codec base)
      (toBase : target.Value → Except Refusal base.Value)
      (fromBase : base.Value → Except String target.Value) : Codec target
  /-- What another codec writes; stand-ins and sizes are found by encoding. -/
  | terse (name : String) (objection : Option String) {t : Ty} (codec : Codec t) : Codec t
  | seq (shape : SeqShape) {element : Ty} (codec : Codec element) : Codec (.seq shape element)
  | map (shape : MapShape) {key value : Ty} (keyCodec : Codec key) (valueCodec : Codec value) :
      Codec (.map shape key value)
  | option {value : Ty} (codec : Codec value) : Codec (.option value)
  | pair {first second : Ty} (firstCodec : Codec first) (secondCodec : Codec second) :
      Codec (.pair first second)
  | triple {first second third : Ty} (firstCodec : Codec first) (secondCodec : Codec second)
      (thirdCodec : Codec third) : Codec (.triple first second third)

abbrev AnyCodec := (t : Ty) × Codec t

inductive Slot where
  | base
  | element
  | key
  | value
  | first
  | second
  | third
deriving DecidableEq, Repr

def Slot.label? : Slot → Option String
  | .base => none
  | .element => some "element"
  | .key => some "key"
  | .value => some "value"
  | .first => some "first"
  | .second => some "second"
  | .third => some "third"

namespace Codec

def slots : {t : Ty} → Codec t → List (Slot × AnyCodec)
  | _, .derived _ codec _ _ => [(.base, ⟨_, codec⟩)]
  | _, .terse _ _ codec => [(.base, ⟨_, codec⟩)]
  | _, .seq _ codec => [(.element, ⟨_, codec⟩)]
  | _, .map _ k v => [(.key, ⟨_, k⟩), (.value, ⟨_, v⟩)]
  | _, .option codec => [(.value, ⟨_, codec⟩)]
  | _, .pair a b => [(.first, ⟨_, a⟩), (.second, ⟨_, b⟩)]
  | _, .triple a b c => [(.first, ⟨_, a⟩), (.second, ⟨_, b⟩), (.third, ⟨_, c⟩)]
  | _, _ => []

/-- The component in a slot, if the codec has that slot. -/
def component? {t : Ty} (codec : Codec t) (slot : Slot) : Option AnyCodec :=
  (codec.slots.find? fun entry => entry.1 = slot).map (·.2)

def intLabel : Sign → Width → String
  | .signed, w => s!"I{w.bits}Codec"
  | .unsigned, w => s!"U{w.bits}Codec"

def describe : {t : Ty} → Codec t → String
  | _, .int s w => intLabel s w
  | _, .float p => s!"F{p.width.bits}Codec"
  | _, .bool => "BoolCodec"
  | _, .unit => "UnitCodec"
  | _, .never => "NeverCodec"
  | _, .text => "StringCodec"
  | _, .bytes => "BytesCodec"
  | _, .compact name _ => name
  | _, .derived name codec _ _ => s!"{name}({codec.describe})"
  | _, .terse name _ _ => name
  | _, .seq shape codec => s!"SeqCodec<{shape.label}>({codec.describe})"
  | _, .map shape k v => s!"MapCodec<{shape.label}>({k.describe}, {v.describe})"
  | _, .option codec => s!"OptionCodec({codec.describe})"
  | _, .pair a b => s!"PairCodec({a.describe}, {b.describe})"
  | _, .triple a b c => s!"TripleCodec({a.describe}, {b.describe}, {c.describe})"

/-- The fields of a derived codec, as a text; other codecs show none. -/
def fields? : {t : Ty} → Codec t → Option String
  | _, .derived name codec _ _ =>
    some s!"DerivedCodec \x7b name: {name.quote}, base: {codec.describe.quote} \x7d"
  | _, _ => none

/-- Whether equality of decoded values is equality of encodings. It is not for floating-point numbers,
nor where the order of iteration is open. -/
def equalityConsistent : {t : Ty} → Codec t → Bool
  | _, .float _ => false
  | _, .compact _ _ => false
  | _, .derived _ codec _ _ => codec.equalityConsistent
  | _, .terse _ _ _ => false
  | _, .seq shape codec => shape.order != .hashed && codec.equalityConsistent
  | _, .map _ _ _ => false
  | _, .option codec => codec.equalityConsistent
  | _, .pair a b => a.equalityConsistent && b.equalityConsistent
  | _, .triple a b c => a.equalityConsistent && b.equalityConsistent && c.equalityConsistent
  | _, _ => true

end Codec
end TypedWire
