import TypedWire.Ty

/-! Floating-point numbers and hashed containers have an equality but no order of their own. Types that are
built without them are `Ordered`, and these are the types whose values can be keys. -/

namespace TypedWire.Ty

/-- The types whose values have an order. -/
def Ordered : Ty → Prop
  | .float _ => False
  | .seq shape t => shape ≠ .hashSet ∧ t.Ordered
  | .map shape k v => shape ≠ .hashed ∧ k.Ordered ∧ v.Ordered
  | .option t => t.Ordered
  | .pair a b => a.Ordered ∧ b.Ordered
  | .triple a b c => a.Ordered ∧ b.Ordered ∧ c.Ordered
  | .newtype _ t => t.Ordered
  | _ => True

def orderOption {α : Type} (order : α → α → Ordering) : Option α → Option α → Ordering
  | none, none => .eq
  | none, some _ => .lt
  | some _, none => .gt
  | some a, some b => order a b

/-- The order of the values of a type. On floating-point numbers it is the order of the patterns, and
on hashed containers that of the lists, which nothing relies on. -/
def order : (t : Ty) → t.Value → t.Value → Ordering
  | .int s _, a, b => compare (s.value a) (s.value b)
  | .float _, a, b => compare a.toNat b.toNat
  | .bool, a, b => compare a.toNat b.toNat
  | .unit, _, _ => .eq
  | .text, a, b => compare a b
  | .never, a, _ => a.elim
  | .char, a, b => compare a b
  | .integer, a, b => compare a b
  | .decimal, a, b => Decimal.order a b
  | .seq _ t, a, b => List.compareLex t.order a b
  | .map _ k v, a, b => List.compareLex (fun p q => (k.order p.1 q.1).then (v.order p.2 q.2)) a b
  | .option t, a, b => orderOption t.order a b
  | .pair s t, a, b => (s.order a.1 b.1).then (t.order a.2 b.2)
  | .triple s t u, a, b =>
    (s.order a.1 b.1).then ((t.order a.2.1 b.2.1).then (u.order a.2.2 b.2.2))
  | .newtype _ t, a, b => t.order a b

def valueAt? {κ β : Type} (same : κ → κ → Bool) (key : κ) (entries : List (κ × β)) : Option β :=
  (entries.find? fun entry => same key entry.1).map (·.2)

/-- Equality of the values of a type. Hashed containers are equal if they hold the same elements or
entries, in whatever order; all else is compared component by component. -/
def equal : (t : Ty) → t.Value → t.Value → Bool
  | .int _ _, a, b => a == b
  | .float p, a, b => p.equal a b
  | .bool, a, b => a == b
  | .unit, _, _ => true
  | .text, a, b => a == b
  | .never, a, _ => a.elim
  | .char, a, b => a == b
  | .integer, a, b => a == b
  | .decimal, a, b => a.order b == .eq
  | .seq .hashSet t, a, b => a.length == b.length && a.all fun x => b.any (t.equal x)
  | .seq _ t, a, b => a.isEqv b t.equal
  | .map .hashed k v, a, b =>
    a.length == b.length && a.all fun entry => (valueAt? k.equal entry.1 b).any (v.equal entry.2)
  | .map .sorted k v, a, b => a.isEqv b fun p q => k.equal p.1 q.1 && v.equal p.2 q.2
  | .option _, none, none => true
  | .option t, some a, some b => t.equal a b
  | .option _, _, _ => false
  | .pair s t, a, b => s.equal a.1 b.1 && t.equal a.2 b.2
  | .triple s t u, a, b => s.equal a.1 b.1 && (t.equal a.2.1 b.2.1 && u.equal a.2.2 b.2.2)
  | .newtype _ t, a, b => t.equal a b

end TypedWire.Ty
