import TypedWire.Insertion
import TypedWire.Ty.Order

/-! A list shape keeps what it is given; a set keeps of equal elements the first one; a map keeps of equal
keys the first one, with the value that came last. -/

namespace TypedWire

structure CountMismatch where
  expected : Nat
  found : Nat
deriving DecidableEq, Repr

def SeqShape.gather (shape : SeqShape) (t : Ty) (elements : List t.Value) :
    Except CountMismatch (List t.Value) :=
  match shape with
  | .array size => if elements.length = size then .ok elements else .error ⟨size, elements.length⟩
  | .sortedSet => .ok (elements.foldl (fun set x => Sorted.insert t.order x set) [])
  | .hashSet => .ok (elements.foldl (fun set x => Hashed.insert t.equal x set) [])
  | _ => .ok elements

def MapShape.insert (shape : MapShape) (k : Ty) {β : Type} (entries : List (k.Value × β))
    (entry : k.Value × β) : List (k.Value × β) :=
  match shape with
  | .sorted => Sorted.insertEntry k.order entry.1 entry.2 entries
  | .hashed => Hashed.insertEntry k.equal entry.1 entry.2 entries

def MapShape.insertAll (shape : MapShape) (k : Ty) {β : Type} (target entries : List (k.Value × β)) :
    List (k.Value × β) :=
  entries.foldl (shape.insert k) target

end TypedWire
