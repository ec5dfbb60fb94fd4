import TypedWire.Source
import TypedWire.Ty

/-! Memory asked for in advance. On the word of a count, a container asks for room before its first element
is read, and a payload before its first byte, for as many as the limits pass on. -/

namespace TypedWire

structure Layout where
  size : Ty → Nat
  /-- The bytes of a hash table that is asked for with room for so many values. -/
  table : Ty → Nat → Nat

namespace Layout

/-- The greatest signed number with the bits of an address. -/
def limit : Nat := 9223372036854775807

def elements (layout : Layout) (shape : SeqShape) (element : Ty) (capacity : Nat) : Nat :=
  match shape with
  | .vector | .deque | .boxed => capacity * layout.size element
  | .array size => min capacity size * layout.size element
  | .linked | .sortedSet => 0
  | .hashSet => layout.table element capacity

def entries (layout : Layout) (shape : MapShape) (key value : Ty) (capacity : Nat) : Nat :=
  match shape with
  | .sorted => 0
  | .hashed => layout.table (.pair key value) capacity

end Layout

/-- A decoder that asks for memory. -/
abbrev Run (α : Type) := ExceptT DecodeError (StateT Source Option) α

namespace Run

variable {α : Type}

/-- The result and the source that is left, if the run returns. -/
def outcome (run : Run α) (source : Source) : Option (Except DecodeError α × Source) := run source

def of (decoder : Decoder α) : Run α := fun source => some (decoder.read source)

/-- Asks for what `ask` says that as many need as the limits pass on of `count`. A run that asks for more than
there can be does not return; whatever is less is given. -/
def reserve (ask : Nat → Nat) (count : Nat) : Run Unit := fun source =>
  if ask (source.limits.prealloc (.ofNat count)).toNat ≤ Layout.limit then some (.ok (), source) else none

def labeled (label : String) (run : Run α) : Run α := fun source =>
  match run source with
  | none => none
  | some (.ok value, after) => some (.ok value, after)
  | some (.error error, after) => some (.error (error.labeled label), after)

def block (count : Nat) : Run (List Byte) := do
  reserve id count
  of (Decoder.block count)

def collect (run : Run α) : (count : Nat) → (done : List α) → Run (List α)
  | 0, done => pure done.reverse
  | count + 1, done => do collect run count ((← run) :: done)

end Run
end TypedWire
