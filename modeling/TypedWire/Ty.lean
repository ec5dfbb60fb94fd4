import TypedWire.Decimal
import TypedWire.Word

/-! The values of a type are data, and every container is a list. Which lists are sets and maps of a shape
is a matter of how they are built; a hashed container is a list in whatever order its hashing happens to
yield, so a statement about all such orders is one about all such lists. -/

namespace TypedWire

inductive SeqShape where
  | vector
  | deque
  | linked
  | boxed
  | array (size : Nat)
  | sortedSet
  | hashSet
deriving DecidableEq, Repr

inductive MapShape where
  | sorted
  | hashed
deriving DecidableEq, Repr

inductive IterationOrder where
  | insertion
  | sorted
  | hashed
deriving DecidableEq, Repr

def IterationOrder.name : IterationOrder → String
  | .insertion => "Insertion"
  | .sorted => "Sorted"
  | .hashed => "Hashed"

namespace SeqShape

def label : SeqShape → String
  | .vector => "Vec"
  | .deque => "VecDeque"
  | .linked => "LinkedList"
  | .boxed => "BoxedSlice"
  | .array _ => "Array"
  | .sortedSet => "BTreeSet"
  | .hashSet => "HashSet"

def order : SeqShape → IterationOrder
  | .sortedSet => .sorted
  | .hashSet => .hashed
  | _ => .insertion

end SeqShape

def MapShape.label : MapShape → String
  | .sorted => "BTreeMap"
  | .hashed => "HashMap"

/-- What a new type says of itself: its name, the name of the codec that is derived for it from the
codec of its base, and the name of a stand-in that it registers for itself while that is built. -/
structure NewtypeDecl where
  name : String
  codecName : String
  standIn : Option String
deriving DecidableEq, Repr

inductive Ty where
  | int (sign : Sign) (width : Width)
  | float (precision : Precision)
  | bool
  | unit
  | text
  | never
  | char
  | integer
  | decimal
  | seq (shape : SeqShape) (element : Ty)
  | map (shape : MapShape) (key value : Ty)
  | option (value : Ty)
  | pair (first second : Ty)
  | triple (first second third : Ty)
  | newtype (decl : NewtypeDecl) (base : Ty)
deriving DecidableEq, Repr

namespace Ty

abbrev byte : Ty := .int .unsigned .one

@[reducible] def Value : Ty → Type
  | .int _ w => Word w
  | .float p => Word p.width
  | .bool => Bool
  | .unit => Unit
  | .text => String
  | .never => Empty
  | .char => Char
  | .integer => Int
  | .decimal => Decimal
  | .seq _ t => List t.Value
  | .map _ k v => List (k.Value × v.Value)
  | .option t => Option t.Value
  | .pair a b => a.Value × b.Value
  | .triple a b c => a.Value × b.Value × c.Value
  | .newtype _ t => t.Value

def intName : Sign → Width → String
  | .signed, w => s!"i{w.bits}"
  | .unsigned, w => s!"u{w.bits}"

/-- The name of a type, as log lines show it. -/
def name : Ty → String
  | .int s w => intName s w
  | .float p => s!"f{p.width.bits}"
  | .bool => "bool"
  | .unit => "()"
  | .text => "String"
  | .never => "Never"
  | .char => "char"
  | .integer => "BigInt"
  | .decimal => "BigDecimal"
  | .seq .boxed t => s!"Box<[{t.name}]>"
  | .seq (.array n) t => s!"[{t.name}; {n}]"
  | .seq shape t => s!"{shape.label}<{t.name}>"
  | .map shape k v => s!"{shape.label}<{k.name}, {v.name}>"
  | .option t => s!"Option<{t.name}>"
  | .pair a b => s!"({a.name}, {b.name})"
  | .triple a b c => s!"({a.name}, {b.name}, {c.name})"
  | .newtype decl _ => decl.name

end Ty
end TypedWire
