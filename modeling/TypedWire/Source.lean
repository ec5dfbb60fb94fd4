import TypedWire.Reader
import TypedWire.DecodeLimits
import TypedWire.Varint
import TypedWire.Word

/-!
The offset of a source counts the bytes of the reads that succeeded, and is what errors report.
Two reads reach the stream. `Decoder.exactly` takes fixed-width data; there a failure of kind
`unexpectedEof` is the end of the input. `Decoder.block` takes a payload of announced length;
there only the end of the stream is.
-/

namespace TypedWire

structure Source where
  reader : Reader
  offset : Nat
  limits : DecodeLimits
deriving DecidableEq, Repr

def Source.ofReader (reader : Reader) (limits : DecodeLimits) : Source := ⟨reader, 0, limits⟩

def Source.ofBytes (bytes : List Byte) (limits : DecodeLimits) : Source :=
  .ofReader (.ofBytes bytes) limits

abbrev Decoder (α : Type) := ExceptT DecodeError (StateM Source) α

namespace Decoder

variable {α β : Type}

def read (decoder : Decoder α) (source : Source) : Except DecodeError α × Source := decoder source

@[simp] theorem read_pure (value : α) (source : Source) :
    (pure value : Decoder α).read source = (.ok value, source) := rfl

@[simp] theorem read_throw (error : DecodeError) (source : Source) :
    (throw error : Decoder α).read source = (.error error, source) := rfl

theorem read_bind (first : Decoder α) (second : α → Decoder β) (source : Source) :
    (first >>= second).read source =
      match first.read source with
      | (.ok value, after) => (second value).read after
      | (.error error, after) => (.error error, after) := by
  simp only [read, bind, ExceptT.bind, ExceptT.mk, StateT.bind, ExceptT.bindCont]
  cases first source with
  | mk result after => cases result <;> rfl

def offset : Decoder Nat := do return (← get).offset

def limits : Decoder DecodeLimits := do return (← get).limits

def labeled (label : String) (decoder : Decoder α) : Decoder α := fun source =>
  match decoder source with
  | (.ok value, after) => (.ok value, after)
  | (.error error, after) => (.error (error.labeled label), after)

@[simp] theorem read_offset (source : Source) : offset.read source = (.ok source.offset, source) := rfl

@[simp] theorem read_limits (source : Source) : limits.read source = (.ok source.limits, source) := rfl

@[simp] theorem read_labeled (label : String) (decoder : Decoder α) (source : Source) :
    (decoder.labeled label).read source =
      match decoder.read source with
      | (.ok value, after) => (.ok value, after)
      | (.error error, after) => (.error (error.labeled label), after) := rfl

/-- Reads `count` bytes of fixed-width data. -/
def exactly (count : Nat) : Decoder (List Byte) := fun source =>
  match source.reader.pull count with
  | ((bytes, none), reader) =>
    (.ok bytes, { source with reader, offset := source.offset + bytes.length })
  | ((_, some .endOfInput), reader) => (.error (.unexpectedEof source.offset), { source with reader })
  | ((_, some (.failed failure)), reader) =>
    (.error (if failure.kind = .unexpectedEof then .unexpectedEof source.offset
      else .io source.offset failure), { source with reader })

def block (count : Nat) : Decoder (List Byte) := fun source =>
  match source.reader.pull count with
  | ((bytes, none), reader) =>
    (.ok bytes, { source with reader, offset := source.offset + bytes.length })
  | ((bytes, some .endOfInput), reader) =>
    (.error (.unexpectedEof (source.offset + bytes.length)), { source with reader })
  | ((_, some (.failed failure)), reader) =>
    (.error (.io source.offset failure), { source with reader })

def word (w : Width) : Decoder (Word w) := do
  return BitVec.ofNat w.bits (ofBigEndian (← exactly w.bytes))

def byte : Decoder Byte := word .one

def flag : Decoder Bool := do
  let start ← offset
  let byte ← byte
  if byte = 0 then return false
  else if byte = 1 then return true
  else throw (.invalidFlag start byte)

/-- Reads the bytes of a number of varying length that began at `start`, of which `seen` have been
read and up to `more` may follow. -/
def varintFrom (start : Nat) : (more : Nat) → (seen : List Byte) → Decoder Nat
  | 0, _ => throw (.malformedVarint start)
  | more + 1, seen => do
    let byte ← byte
    if byte.toNat < 128 then
      match Varint.decode (seen ++ [byte]) with
      | .ok (value, _) => return value
      | .error _ => throw (.malformedVarint start)
    else varintFrom start more (seen ++ [byte])

/-- Reads a number of varying length, byte by byte and none too many. -/
def varint : Decoder Nat := do varintFrom (← offset) Varint.maxLength []

def length : Decoder Nat := do
  let start ← offset
  let value ← varint
  let limit := (← limits).maxLength.toNat
  if value ≤ limit then return value else throw (.lengthLimit start value limit)

/-- Runs a decoder `count` times, up to the first failure; gives what was read before it, the failure
and the source that is left. `done` has been read already, last first. -/
def repeatFrom (decoder : Decoder α) : (count : Nat) → (done : List α) → Source →
    (List α × Option DecodeError) × Source
  | 0, done, source => ((done.reverse, none), source)
  | count + 1, done, source =>
    match decoder.read source with
    | (.ok value, after) => repeatFrom decoder count (value :: done) after
    | (.error error, after) => ((done.reverse, some error), after)

def attempts (decoder : Decoder α) (count : Nat) (source : Source) :
    (List α × Option DecodeError) × Source :=
  repeatFrom decoder count [] source

/-- Runs a decoder `count` times and gives all that it read. -/
def replicate (count : Nat) (decoder : Decoder α) : Decoder (List α) := fun source =>
  match attempts decoder count source with
  | ((values, none), after) => (.ok values, after)
  | ((_, some error), after) => (.error error, after)

end Decoder
end TypedWire
