import TypedWire.Byte
import TypedWire.Insertion

/-! Stand-ins for values that can always be compared. Sets and maps keep their parts in the order of the
parts, so that two containers with the same content have the same stand-in however they were iterated. -/

namespace TypedWire

inductive StructuralValue where
  | bytes (data : List Byte)
  | tuple (parts : List StructuralValue)
  | absent
  | present (inner : StructuralValue)
  | seq (elements : List StructuralValue)
  /-- A container without order, its elements in increasing order. -/
  | set (elements : List StructuralValue)
  /-- Keys with values, in increasing order of the keys. -/
  | map (entries : List (StructuralValue × StructuralValue))
deriving Repr

namespace StructuralValue

def rank : StructuralValue → Nat
  | .bytes _ => 0
  | .tuple _ => 1
  | .absent => 2
  | .present _ => 3
  | .seq _ => 4
  | .set _ => 5
  | .map _ => 6

mutual

/-- The order of stand-ins: kinds by rank, leaves by their bytes, and everything else part by part. -/
def order : StructuralValue → StructuralValue → Ordering
  | .bytes a, .bytes b => List.compareLex (fun x y => compare x.toNat y.toNat) a b
  | .tuple a, .tuple b => orderLists a b
  | .present a, .present b => order a b
  | .seq a, .seq b => orderLists a b
  | .set a, .set b => orderLists a b
  | .map a, .map b => orderEntryLists a b
  | a, b => compare a.rank b.rank
termination_by structural a => a

def orderLists : List StructuralValue → List StructuralValue → Ordering
  | [], [] => .eq
  | [], _ :: _ => .lt
  | _ :: _, [] => .gt
  | a :: as, b :: bs => (order a b).then (orderLists as bs)
termination_by structural a => a

def orderEntries : StructuralValue × StructuralValue → StructuralValue × StructuralValue → Ordering
  | (k, v), (l, w) => (order k l).then (order v w)
termination_by structural a => a

def orderEntryLists :
    List (StructuralValue × StructuralValue) → List (StructuralValue × StructuralValue) → Ordering
  | [], [] => .eq
  | [], _ :: _ => .lt
  | _ :: _, [] => .gt
  | a :: as, b :: bs => (orderEntries a b).then (orderEntryLists as bs)
termination_by structural a => a

end

mutual

/-- Equality of stand-ins: the same kind, the same bytes, and equal parts. -/
def equal : StructuralValue → StructuralValue → Bool
  | .bytes a, .bytes b => a == b
  | .tuple a, .tuple b => equalLists a b
  | .absent, .absent => true
  | .present a, .present b => equal a b
  | .seq a, .seq b => equalLists a b
  | .set a, .set b => equalLists a b
  | .map a, .map b => equalEntryLists a b
  | _, _ => false
termination_by structural a => a

def equalLists : List StructuralValue → List StructuralValue → Bool
  | [], [] => true
  | a :: as, b :: bs => equal a b && equalLists as bs
  | _, _ => false
termination_by structural a => a

def equalEntries : StructuralValue × StructuralValue → StructuralValue × StructuralValue → Bool
  | (k, v), (l, w) => equal k l && equal v w
termination_by structural a => a

def equalEntryLists :
    List (StructuralValue × StructuralValue) → List (StructuralValue × StructuralValue) → Bool
  | [], [] => true
  | a :: as, b :: bs => equalEntries a b && equalEntryLists as bs
  | _, _ => false
termination_by structural a => a

end

instance : BEq StructuralValue := ⟨equal⟩

/-- The stand-in of a container with the given elements, in whatever order they are given. -/
def setOf (elements : List StructuralValue) : StructuralValue :=
  .set (elements.foldl (fun set x => Sorted.insert order x set) [])

def mapOf (entries : List (StructuralValue × StructuralValue)) : StructuralValue :=
  .map (entries.foldl (fun map entry => Sorted.insertEntry order entry.1 entry.2 map) [])

def optional : Option StructuralValue → StructuralValue
  | none => .absent
  | some inner => .present inner

end StructuralValue
end TypedWire
