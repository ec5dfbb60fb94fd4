import TypedWire.Codec
import TypedWire.TwosComplement

namespace TypedWire.Codec

def codePoint (n : Nat) : String :=
  let digits := (Nat.toDigits 16 n).map Char.toUpper
  String.ofList (List.replicate (4 - digits.length) '0' ++ digits)

def charToByte (c : Char) : Except Refusal Byte :=
  if c.toNat < 256 then .ok (BitVec.ofNat 8 c.toNat)
  else .error (.told s!"char U+{codePoint c.toNat} needs more than one byte")

def byteToChar (byte : Byte) : Char := Char.ofNat byte.toNat

def char : Codec .char :=
  .derived "CharCodec" (.int .unsigned .one) charToByte fun byte => .ok (byteToChar byte)

/-- Integers of any size as two's-complement numerals. -/
def integer : Codec .integer :=
  .derived "BigIntCodec" .bytes (fun n => .ok (TwosComplement.encode n))
    fun bytes => .ok (TwosComplement.decode bytes)

/-- The scale and the digits of the normal form of a decimal. -/
def decimalParts (d : Decimal) : Except Refusal (Ty.Value (.pair (.int .signed .eight) .integer)) :=
  match d.normal with
  | some n => .ok (n.scale, n.digits)
  | none => .error .overflow

def decimal : Codec .decimal :=
  .derived "BigDecimalCodec" (.pair (.int .signed .eight) integer) decimalParts
    fun parts => .ok ⟨parts.2, parts.1⟩

def absent : Codec (.option .never) := .option .never

/-- The codec that a new type derives from the codec of its base: it writes the same values. -/
def renamed (decl : NewtypeDecl) (name : String) {t : Ty} (codec : Codec t) : Codec (.newtype decl t) :=
  .derived name codec .ok .ok

/-- The codec that a type has unless another one is chosen: each combinator over the codecs of the
components. A new type that registers a stand-in is left with that. -/
def canonical : (t : Ty) → Codec t
  | .int s w => .int s w
  | .float p => .float p
  | .bool => .bool
  | .unit => .unit
  | .text => .text
  | .never => .never
  | .char => char
  | .integer => integer
  | .decimal => decimal
  | .seq shape t => .seq shape (canonical t)
  | .map shape k v => .map shape (canonical k) (canonical v)
  | .option t => .option (canonical t)
  | .pair a b => .pair (canonical a) (canonical b)
  | .triple a b c => .triple (canonical a) (canonical b) (canonical c)
  | .newtype decl t => renamed decl (decl.standIn.getD decl.codecName) (canonical t)

end TypedWire.Codec
