import TypedWire.Failure

/-! A stream is a script: it has room for some bytes, is interrupted, or refuses, and when the script is
over it takes everything or refuses for good. -/

namespace TypedWire

inductive WriteRefusal where
  | failed (failure : IoFailure)
  | full
deriving DecidableEq, Repr

def WriteRefusal.failure : WriteRefusal → IoFailure
  | .failed failure => failure
  | .full => .nothingWritten

inductive Acceptance where
  | room (bytes : Nat)
  | interrupted
  | refusal (refusal : WriteRefusal)
deriving DecidableEq, Repr

structure Writer where
  accepted : Array Byte
  script : List Acceptance
  /-- How it refuses after that, or `none` if it takes everything. -/
  ending : Option WriteRefusal
deriving DecidableEq, Repr

namespace Writer

def unlimited : Writer := ⟨#[], [], none⟩

/-- Offers `data` to a stream with the given script and ending that has taken `accepted`; gives the
failure if there is one, the script that is left and what has been taken in the end. -/
def offer (ending : Option WriteRefusal) :
    (script : List Acceptance) → (data : List Byte) → (accepted : Array Byte) →
      Option IoFailure × List Acceptance × Array Byte
  | script, [], accepted => (none, script, accepted)
  | [], byte :: data, accepted =>
    match ending with
    | none => (none, [], accepted ++ (byte :: data))
    | some refusal => (some refusal.failure, [], accepted)
  | .interrupted :: script, byte :: data, accepted => offer ending script (byte :: data) accepted
  | .refusal refusal :: script, _ :: _, accepted => (some refusal.failure, script, accepted)
  | .room bytes :: script, byte :: data, accepted =>
    if data.length + 1 < bytes then
      (none, .room (bytes - (data.length + 1)) :: script, accepted ++ (byte :: data))
    else offer ending script ((byte :: data).drop bytes) (accepted ++ (byte :: data).take bytes)

theorem offer_accepted_of_none (ending : Option WriteRefusal) (script : List Acceptance) (data : List Byte)
    (accepted : Array Byte) (success : (offer ending script data accepted).1 = none) :
    (offer ending script data accepted).2.2.toList = accepted.toList ++ data := by
  fun_induction offer ending script data accepted <;> simp_all

/-- Writes `data`, carrying on over short writes and interruptions. -/
def push (data : List Byte) (writer : Writer) : Option IoFailure × Writer :=
  let (failure, script, accepted) := offer writer.ending writer.script data writer.accepted
  (failure, { writer with accepted, script })

end Writer
end TypedWire
