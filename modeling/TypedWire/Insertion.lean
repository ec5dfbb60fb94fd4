namespace TypedWire

namespace Sorted

variable {α β κ : Type}

def insert (order : α → α → Ordering) (x : α) : List α → List α
  | [] => [x]
  | y :: rest =>
    match order x y with
    | .lt => x :: y :: rest
    | .eq => y :: rest
    | .gt => y :: insert order x rest

/-- Puts an entry in its place; under a key that is there, only the value changes. -/
def insertEntry (order : κ → κ → Ordering) (key : κ) (value : β) : List (κ × β) → List (κ × β)
  | [] => [(key, value)]
  | entry :: rest =>
    match order key entry.1 with
    | .lt => (key, value) :: entry :: rest
    | .eq => (entry.1, value) :: rest
    | .gt => entry :: insertEntry order key value rest

end Sorted

namespace Hashed

variable {α β κ : Type}

def insert (same : α → α → Bool) (x : α) (elements : List α) : List α :=
  if elements.any (same x) then elements else elements ++ [x]

def insertEntry (same : κ → κ → Bool) (key : κ) (value : β) : List (κ × β) → List (κ × β)
  | [] => [(key, value)]
  | entry :: rest =>
    if same key entry.1 then (entry.1, value) :: rest else entry :: insertEntry same key value rest

end Hashed

end TypedWire
