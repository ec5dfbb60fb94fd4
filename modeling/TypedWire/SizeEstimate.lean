import TypedWire.Emission

namespace TypedWire

structure SizeEstimate where
  total : Nat := 0
  /-- Whether the total is an approximation. -/
  isLazy : Bool := false
deriving DecidableEq, Repr

namespace SizeEstimate

def update (bytes : Nat) (estimate : SizeEstimate) : SizeEstimate :=
  { estimate with total := min (estimate.total + bytes) Emission.counterLimit }

def markLazy (estimate : SizeEstimate) : SizeEstimate := { estimate with isLazy := true }

def ofUpdates (updates : List Nat) : SizeEstimate :=
  updates.foldl (fun estimate bytes => estimate.update bytes) {}

end SizeEstimate
end TypedWire
