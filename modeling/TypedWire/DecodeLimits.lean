namespace TypedWire

structure DecodeLimits where
  maxLength : UInt64
  /-- The greatest capacity reserved in advance. -/
  maxPrealloc : UInt64
deriving DecidableEq, Repr

namespace DecodeLimits

def defaultMaxLength : UInt64 := 2147483647

def defaultMaxPrealloc : UInt64 := 65536

def standard : DecodeLimits := ⟨defaultMaxLength, defaultMaxPrealloc⟩

def unbounded : DecodeLimits := ⟨18446744073709551615, defaultMaxPrealloc⟩

/-- The capacity to reserve for a container that announces `length` elements. -/
def prealloc (limits : DecodeLimits) (length : UInt64) : UInt64 := min length limits.maxPrealloc

end DecodeLimits
end TypedWire
