/-! A verdict that fails is a tree: the codec's own objections are messages, and a component that failed
stands under its label with the reasons of its own verdict. -/

namespace TypedWire

inductive Reason where
  | message (text : String)
  | component (label codec : String) (reasons : List Reason)
deriving Repr

structure NonDeterministic where
  codec : String
  reasons : List Reason
deriving Repr

abbrev Verdict := Except NonDeterministic Unit

mutual

def Reason.text : Reason → String
  | .message text => text
  | .component label codec reasons => s!"{label}: {codec} is not deterministic{Reason.listing true reasons}"

def Reason.listing (first : Bool) : List Reason → String
  | [] => ""
  | reason :: rest => (if first then ": " else "; ") ++ reason.text ++ Reason.listing false rest

end

namespace NonDeterministic

def single (codec reason : String) : NonDeterministic := ⟨codec, [.message reason]⟩

def message (verdict : NonDeterministic) : String :=
  s!"{verdict.codec} is not deterministic{Reason.listing true verdict.reasons}"

def labels (verdict : NonDeterministic) : List String :=
  verdict.reasons.filterMap fun
    | .component label _ _ => some label
    | .message _ => none

/-- The verdict on the first component that failed. -/
def firstCause? (verdict : NonDeterministic) : Option NonDeterministic :=
  verdict.reasons.findSome? fun
    | .component _ codec reasons => some ⟨codec, reasons⟩
    | .message _ => none

end NonDeterministic

mutual

def Reason.descent : Reason → List NonDeterministic
  | .message _ => []
  | .component _ codec reasons => ⟨codec, reasons⟩ :: Reason.firstDescent reasons

def Reason.firstDescent : List Reason → List NonDeterministic
  | [] => []
  | reason :: rest =>
    match reason.descent with
    | [] => Reason.firstDescent rest
    | found => found

end

/-- The texts of the verdicts that lie behind a verdict, each the first cause of the one before. -/
def NonDeterministic.chain (verdict : NonDeterministic) : List String :=
  (Reason.firstDescent verdict.reasons).map (·.message)

structure Checklist where
  codec : String
  reasons : List Reason := []

namespace Checklist

def reason (text : String) (list : Checklist) : Checklist :=
  { list with reasons := list.reasons ++ [.message text] }

def component (label : String) (outcome : Verdict) (list : Checklist) : Checklist :=
  match outcome with
  | .ok () => list
  | .error cause => { list with reasons := list.reasons ++ [.component label cause.codec cause.reasons] }

/-- The verdict: the codec passes if there is no reason against it. -/
def verdict (list : Checklist) : Verdict :=
  if list.reasons.isEmpty then .ok () else .error ⟨list.codec, list.reasons⟩

end Checklist
end TypedWire
