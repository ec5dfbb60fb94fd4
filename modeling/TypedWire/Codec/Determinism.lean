import TypedWire.Codec
import TypedWire.Determinism
import TypedWire.Log

namespace TypedWire.Codec

def ownVerdict (name : String) : (objection : Option String) → Verdict
  | none => .ok ()
  | some reason => .error (.single name reason)

def determinism : {t : Ty} → Codec t → Verdict
  | _, .compact name objection => ownVerdict name objection
  | _, .terse name objection _ => ownVerdict name objection
  | _, .derived _ codec _ _ => codec.determinism
  | _, .seq shape codec =>
    let list : Checklist := { codec := (Codec.seq shape codec).describe }
    let list := if shape.order = .hashed then
      list.reason s!"{shape.label} iteration order depends on hashing" else list
    (list.component "element" codec.determinism).verdict
  | _, .map shape k v =>
    let list : Checklist := { codec := (Codec.map shape k v).describe }
    (((list.reason s!"{shape.label} entry order is not part of the encoding").component "key"
      k.determinism).component "value" v.determinism).verdict
  | _, .option codec =>
    let list : Checklist := { codec := (Codec.option codec).describe }
    (list.component "value" codec.determinism).verdict
  | _, .pair a b =>
    let list : Checklist := { codec := (Codec.pair a b).describe }
    ((list.component "first" a.determinism).component "second" b.determinism).verdict
  | _, .triple a b c =>
    let list : Checklist := { codec := (Codec.triple a b c).describe }
    (((list.component "first" a.determinism).component "second" b.determinism).component "third"
      c.determinism).verdict
  | _, _ => .ok ()

/-- The verdict on a codec, and the warning that it leaves in the log if it fails. -/
def determinismLogged {t : Ty} (codec : Codec t) : Verdict × List LogEntry :=
  match codec.determinism with
  | .ok () => (.ok (), [])
  | .error cause => (.error cause, [⟨.warn, s!"[verify] {cause.message}"⟩])

end TypedWire.Codec
