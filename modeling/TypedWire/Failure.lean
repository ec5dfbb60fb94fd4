import TypedWire.Utf8

/-! What can go wrong. A failure inside a component is wrapped in the label of the component, so `labels` is
the way from the outermost codec to the one that failed, and `root` is what happened there. -/

namespace TypedWire

inductive IoKind where
  | brokenPipe
  | unexpectedEof
  | permissionDenied
  | timedOut
  | wouldBlock
  | invalidData
  | writeZero
  | other
deriving DecidableEq, Repr

def IoKind.name : IoKind → String
  | .brokenPipe => "BrokenPipe"
  | .unexpectedEof => "UnexpectedEof"
  | .permissionDenied => "PermissionDenied"
  | .timedOut => "TimedOut"
  | .wouldBlock => "WouldBlock"
  | .invalidData => "InvalidData"
  | .writeZero => "WriteZero"
  | .other => "Other"

structure IoFailure where
  kind : IoKind
  text : String
deriving DecidableEq, Repr

/-- The failure of a write that took no byte. -/
def IoFailure.nothingWritten : IoFailure := ⟨.writeZero, "failed to write whole buffer"⟩

/-- Why a mapping gives no value. -/
inductive Refusal where
  | told (text : String)
  /-- Its arithmetic overflows. It does not return then, and nothing after it is run. -/
  | overflow
deriving DecidableEq, Repr

def Refusal.text : Refusal → String
  | .told text => text
  | .overflow => "attempt to subtract with overflow"

inductive EncodeError where
  | io (offset : Nat) (failure : IoFailure)
  /-- A length has no 64-bit length prefix. Lengths of values in memory always have one, so no codec
  raises this. -/
  | lengthOverflow (length : Nat)
  | mapping (refusal : Refusal)
  | component (label : String) (cause : EncodeError)
deriving DecidableEq, Repr

namespace EncodeError

def labeled (label : String) (error : EncodeError) : EncodeError := .component label error

/-- The labels, from the outermost inwards. -/
def labels : EncodeError → List String
  | .component label cause => label :: cause.labels
  | _ => []

/-- The error below all labels. -/
def root : EncodeError → EncodeError
  | .component _ cause => cause.root
  | error => error

def message : EncodeError → String
  | .io offset failure => s!"write failed at offset {offset}: {failure.text}"
  | .lengthOverflow length => s!"length {length} does not fit a 64-bit prefix"
  | .mapping refusal => s!"cannot map value for encoding: {refusal.text}"
  | .component label cause => s!"encoding {label} failed: {cause.message}"

/-- The texts of what lies behind the error, the nearest first. -/
def chain : EncodeError → List String
  | .io _ failure => [failure.text]
  | .component _ cause => cause.message :: cause.chain
  | _ => []

end EncodeError

inductive DecodeError where
  | io (offset : Nat) (failure : IoFailure)
  | unexpectedEof (offset : Nat)
  /-- The length prefix at `offset` has more bytes or bits than a 64-bit number. -/
  | malformedVarint (offset : Nat)
  | lengthLimit (offset length limit : Nat)
  | invalidFlag (offset : Nat) (byte : Byte)
  /-- The payload that begins at `offset` is no text. -/
  | invalidUtf8 (offset : Nat) (fault : Utf8Fault)
  | uninhabited
  | elementCount (expected found : Nat)
  | mapping (text : String)
  /-- A value was read, but not from all the bytes. -/
  | trailingBytes (consumed remaining : Nat)
  | component (label : String) (cause : DecodeError)
deriving DecidableEq, Repr

namespace DecodeError

def labeled (label : String) (error : DecodeError) : DecodeError := .component label error

def labels : DecodeError → List String
  | .component label cause => label :: cause.labels
  | _ => []

def root : DecodeError → DecodeError
  | .component _ cause => cause.root
  | error => error

def hexByte (byte : Byte) : String :=
  String.ofList ['0', 'x', Nat.digitChar (byte.toNat / 16), Nat.digitChar (byte.toNat % 16)]

def message : DecodeError → String
  | .io offset failure => s!"read failed at offset {offset}: {failure.text}"
  | .unexpectedEof offset => s!"unexpected end of input at offset {offset}"
  | .malformedVarint offset => s!"malformed varint at offset {offset}"
  | .lengthLimit offset length limit =>
    s!"length prefix {length} at offset {offset} exceeds limit {limit}"
  | .invalidFlag offset byte => s!"invalid flag byte {hexByte byte} at offset {offset}"
  | .invalidUtf8 offset fault => s!"invalid UTF-8 in string at offset {offset}: {fault.message}"
  | .uninhabited => "attempted to decode an uninhabited type"
  | .elementCount expected found =>
    s!"fixed-size container expects {expected} elements, stream holds {found}"
  | .mapping text => s!"cannot map decoded value: {text}"
  | .trailingBytes consumed remaining =>
    s!"decoder consumed {consumed} bytes but {remaining} bytes remain"
  | .component label cause => s!"decoding {label} failed: {cause.message}"

def chain : DecodeError → List String
  | .io _ failure => [failure.text]
  | .invalidUtf8 _ fault => [fault.message]
  | .component _ cause => cause.message :: cause.chain
  | _ => []

end DecodeError
end TypedWire
