import TypedWire.Failure

/-! A stream is a script: it delivers a chunk, is interrupted, or refuses, and when the script is over it
refuses for good. What a refused read has taken by then is lost. -/

namespace TypedWire

inductive ReadRefusal where
  | endOfInput
  | failed (failure : IoFailure)
deriving DecidableEq, Repr

inductive Delivery where
  /-- It delivers bytes, at most as many as it is asked for; the rest of the chunk comes next. -/
  | chunk (bytes : List Byte)
  | interrupted
  | refusal (refusal : ReadRefusal)
deriving DecidableEq, Repr

structure Reader where
  script : List Delivery
  ending : ReadRefusal
  /-- The bytes that it holds behind its last refusal and never delivers. -/
  withheld : List Byte
deriving DecidableEq, Repr

namespace Reader

def ofBytes (bytes : List Byte) : Reader := ⟨[.chunk bytes], .endOfInput, []⟩

def delivered : List Delivery → List Byte
  | [] => []
  | .chunk bytes :: rest => bytes ++ delivered rest
  | _ :: rest => delivered rest

/-- The bytes that the stream still holds. -/
def held (reader : Reader) : List Byte := delivered reader.script ++ reader.withheld

/-- Takes `count` bytes from a script; gives the bytes got, the refusal if there were fewer, and the
script that is left. -/
def take (ending : ReadRefusal) :
    (count : Nat) → (script : List Delivery) → List Byte × Option ReadRefusal × List Delivery
  | 0, script => ([], none, script)
  | _ + 1, [] => ([], some ending, [])
  | count + 1, .interrupted :: script => take ending (count + 1) script
  | _ + 1, .refusal refusal :: script => ([], some refusal, script)
  | count + 1, .chunk bytes :: script =>
    let front := bytes.take (count + 1)
    match bytes.drop (count + 1) with
    | [] =>
      let (more, refusal, left) := take ending (count + 1 - front.length) script
      (front ++ more, refusal, left)
    | back => (front, none, .chunk back :: script)
termination_by structural _ script => script

/-- Takes `count` bytes, carrying on over short chunks and interruptions. -/
def pull (count : Nat) (reader : Reader) : (List Byte × Option ReadRefusal) × Reader :=
  let (bytes, refusal, script) := take reader.ending count reader.script
  ((bytes, refusal), { reader with script })

@[simp] theorem take_zero (ending : ReadRefusal) (script : List Delivery) :
    take ending 0 script = ([], none, script) := by
  cases script <;> rfl

theorem delivered_take (ending : ReadRefusal) (count : Nat) (script : List Delivery) :
    (take ending count script).1 ++ delivered (take ending count script).2.2 = delivered script := by
  induction script generalizing count with
  | nil => cases count <;> rfl
  | cons delivery script ih =>
    cases count with
    | zero => simp
    | succ count =>
      cases delivery with
      | interrupted => exact ih (count + 1)
      | refusal refusal => rfl
      | chunk bytes =>
        have parts := List.take_append_drop (count + 1) bytes
        simp only [take, delivered]
        split
        · rename_i short
          have whole : bytes.take (count + 1) = bytes := by simpa [short] using parts
          rw [List.append_assoc, ih, whole]
        · rw [delivered, ← List.append_assoc, parts]

theorem held_pull (count : Nat) (reader : Reader) :
    (reader.pull count).1.1 ++ (reader.pull count).2.held = reader.held := by
  simp only [pull, held]
  rw [← List.append_assoc, delivered_take]

end Reader
end TypedWire
