import TypedWire.Byte

/-! The second byte of a sequence has a narrower range after four of the lead bytes, which is what keeps out
overlong forms, surrogates and numbers past the last character. -/

namespace TypedWire

structure Utf8Fault where
  validUpTo : Nat
  /-- The length of the sequence that goes wrong there, or `none` if the bytes end inside it. -/
  errorLength : Option Nat
deriving DecidableEq, Repr

def Utf8Fault.message (fault : Utf8Fault) : String :=
  match fault.errorLength with
  | some length => s!"invalid utf-8 sequence of {length} bytes from index {fault.validUpTo}"
  | none => s!"incomplete utf-8 byte sequence from index {fault.validUpTo}"

namespace Utf8

def continuation (bits : Nat) : Byte := BitVec.ofNat 8 (0x80 + bits % 64)

def encodeChar (c : Char) : List Byte :=
  let n := c.toNat
  if n < 0x80 then [BitVec.ofNat 8 n]
  else if n < 0x800 then [BitVec.ofNat 8 (0xC0 + n / 64), continuation n]
  else if n < 0x10000 then [BitVec.ofNat 8 (0xE0 + n / 4096), continuation (n / 64), continuation n]
  else [BitVec.ofNat 8 (0xF0 + n / 262144), continuation (n / 4096), continuation (n / 64), continuation n]

def encode (text : String) : List Byte := text.toList.flatMap encodeChar

/-- A sequence that has begun: what its next byte may be and what its bytes so far say. -/
structure Pending where
  owed : Nat
  low : Nat
  high : Nat
  seen : Nat
  value : Nat
deriving DecidableEq, Repr

inductive Lead where
  | single (c : Char)
  | opens (pending : Pending)
  | invalid

def lead (byte : Byte) : Lead :=
  let b := byte.toNat
  if b < 0x80 then .single (Char.ofNat b)
  else if b < 0xC2 then .invalid
  else if b < 0xE0 then .opens ⟨1, 0x80, 0xBF, 1, b % 32⟩
  else if b = 0xE0 then .opens ⟨2, 0xA0, 0xBF, 1, 0⟩
  else if b = 0xED then .opens ⟨2, 0x80, 0x9F, 1, 13⟩
  else if b < 0xF0 then .opens ⟨2, 0x80, 0xBF, 1, b % 16⟩
  else if b = 0xF0 then .opens ⟨3, 0x90, 0xBF, 1, 0⟩
  else if b < 0xF4 then .opens ⟨3, 0x80, 0xBF, 1, b % 8⟩
  else if b = 0xF4 then .opens ⟨3, 0x80, 0x8F, 1, 4⟩
  else .invalid

/-- Reads on behind `start` well-formed bytes, whose characters are `done` with the last one first,
and inside the sequence `pending` if one has begun. -/
def scan : (start : Nat) → (done : List Char) → (pending : Option Pending) → List Byte →
    Except Utf8Fault (List Char)
  | _, done, none, [] => .ok done.reverse
  | start, _, some _, [] => .error ⟨start, none⟩
  | start, done, none, byte :: rest =>
    match lead byte with
    | .single c => scan (start + 1) (c :: done) none rest
    | .opens pending => scan start done (some pending) rest
    | .invalid => .error ⟨start, some 1⟩
  | start, done, some p, byte :: rest =>
    if p.low ≤ byte.toNat ∧ byte.toNat ≤ p.high then
      let value := p.value * 64 + byte.toNat % 64
      if p.owed ≤ 1 then scan (start + p.seen + 1) (Char.ofNat value :: done) none rest
      else scan start done (some ⟨p.owed - 1, 0x80, 0xBF, p.seen + 1, value⟩) rest
    else .error ⟨start, some p.seen⟩

def decode (bytes : List Byte) : Except Utf8Fault String := (scan 0 [] none bytes).map String.ofList

end Utf8
end TypedWire
