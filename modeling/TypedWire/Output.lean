import TypedWire.Failure

namespace TypedWire

/-- Items in order, and the error after the last one if there is one. -/
structure Output (α : Type) where
  items : List α
  failure : Option EncodeError
deriving DecidableEq, Repr

namespace Output

variable {α β : Type}

def done : Output α := ⟨[], none⟩

def emit (item : α) : Output α := ⟨[item], none⟩

def fail (error : EncodeError) : Output α := ⟨[], some error⟩

/-- One output after the other; nothing follows a failure. -/
def andThen (first second : Output α) : Output α :=
  match first.failure with
  | none => ⟨first.items ++ second.items, second.failure⟩
  | some _ => first

/-- The outputs of the elements of a list, in order. -/
def concat (walk : β → Output α) (elements : List β) : Output α :=
  elements.foldr (fun element rest => (walk element).andThen rest) done

def ofExcept (result : Except EncodeError β) (walk : β → Output α) : Output α :=
  match result with
  | .ok value => walk value
  | .error error => fail error

@[simp] theorem concat_nil (walk : β → Output α) : concat walk [] = done := rfl

@[simp] theorem concat_cons (walk : β → Output α) (element : β) (rest : List β) :
    concat walk (element :: rest) = (walk element).andThen (concat walk rest) := rfl

theorem concat_map {γ : Type} (walk : β → Output α) (f : γ → β) (elements : List γ) :
    concat walk (elements.map f) = concat (fun element => walk (f element)) elements :=
  List.foldr_map

end Output
end TypedWire
