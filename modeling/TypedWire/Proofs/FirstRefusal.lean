import TypedWire.Reader
import TypedWire.Writer

/-! Whatever the sizes of its chunks, a stream delivers some bytes before it first refuses. How many there
are, and what the refusal is, is all that can be told from outside. -/

namespace TypedWire

namespace Reader

/-- What a script delivers before it first refuses. -/
def supply : List Delivery → List Byte
  | [] => []
  | .chunk bytes :: rest => bytes ++ supply rest
  | .interrupted :: rest => supply rest
  | .refusal _ :: _ => []

/-- How a script refuses first. -/
def firstRefusal (ending : ReadRefusal) : List Delivery → ReadRefusal
  | [] => ending
  | .refusal refusal :: _ => refusal
  | _ :: rest => firstRefusal ending rest

/-- The stream delivers `bytes` and then refuses with `refusal`. -/
structure Breaks (reader : Reader) (bytes : List Byte) (refusal : ReadRefusal) : Prop where
  supplies : supply reader.script = bytes
  refuses : firstRefusal reader.ending reader.script = refusal

theorem breaks_ofBytes (bytes : List Byte) : (ofBytes bytes).Breaks bytes .endOfInput :=
  ⟨List.append_nil bytes, rfl⟩

/-- A script delivers as many bytes as it is asked for, if there are as many before its first refusal, and then is
that much closer to it. -/
theorem take_supply (ending : ReadRefusal) (count : Nat) (script : List Delivery) :
    (take ending count script).1 = (supply script).take count ∧
      (take ending count script).2.1 =
        (if count ≤ (supply script).length then none else some (firstRefusal ending script)) ∧
      (count ≤ (supply script).length → supply (take ending count script).2.2 = (supply script).drop count ∧
        firstRefusal ending (take ending count script).2.2 = firstRefusal ending script) := by
  induction script generalizing count with
  | nil => cases count <;> simp [take, supply, firstRefusal]
  | cons delivery script ih =>
    cases count with
    | zero => simp
    | succ count =>
      cases delivery with
      | interrupted => exact ih (count + 1)
      | refusal refusal => simp [take, supply, firstRefusal]
      | chunk bytes =>
        simp only [take, supply, firstRefusal, List.length_append]
        cases beyond : bytes.drop (count + 1) with
        | nil =>
          have few := List.drop_eq_nil_iff.mp beyond
          obtain ⟨got, refused, left⟩ := ih (count + 1 - bytes.length)
          have enough : count + 1 ≤ bytes.length + (supply script).length ↔
              count + 1 - bytes.length ≤ (supply script).length := by omega
          simp only [List.take_of_length_le few, List.take_append, List.drop_append, beyond, List.nil_append, enough]
          exact ⟨by rw [got], refused, left⟩
        | cons byte more =>
          have enough : count + 1 ≤ bytes.length := by
            apply Nat.le_of_not_lt
            intro few
            rw [List.drop_eq_nil_of_le (Nat.le_of_lt few)] at beyond
            cases beyond
          have within : count + 1 ≤ bytes.length + (supply script).length := by omega
          rw [if_pos within, List.take_append_of_le_length enough, List.drop_append_of_le_length enough, beyond]
          exact ⟨rfl, rfl, fun _ => ⟨rfl, rfl⟩⟩

variable {reader : Reader} {bytes : List Byte} {refusal : ReadRefusal} {count : Nat}

/-- A stream delivers what it is asked for, if it has as much before its first refusal. -/
theorem Breaks.pull_enough (breaks : reader.Breaks bytes refusal) (enough : count ≤ bytes.length) :
    ∃ after, reader.pull count = ((bytes.take count, none), after) ∧ after.Breaks (bytes.drop count) refusal := by
  obtain ⟨rfl, rfl⟩ := breaks
  obtain ⟨got, refused, left⟩ := take_supply reader.ending count reader.script
  rw [if_pos enough] at refused
  obtain ⟨supplies, refuses⟩ := left enough
  exact ⟨_, Prod.ext (Prod.ext got refused) rfl, supplies, refuses⟩

/-- A stream that is asked for more than it delivers before its first refusal delivers that, and refuses. -/
theorem Breaks.pull_short (breaks : reader.Breaks bytes refusal) (short : bytes.length < count) :
    (reader.pull count).1 = (bytes, some refusal) := by
  obtain ⟨rfl, rfl⟩ := breaks
  obtain ⟨got, refused, -⟩ := take_supply reader.ending count reader.script
  rw [if_neg (Nat.not_le.mpr short)] at refused
  rw [List.take_of_length_le (Nat.le_of_lt short)] at got
  exact Prod.ext got refused

end Reader

namespace Writer

/-- How many bytes a script has room for before it first refuses. -/
def room : List Acceptance → Nat
  | [] => 0
  | .room bytes :: rest => bytes + room rest
  | .interrupted :: rest => room rest
  | .refusal _ :: _ => 0

/-- How a script refuses first, if it ever does. -/
def firstRefusal (ending : Option WriteRefusal) : List Acceptance → Option WriteRefusal
  | [] => ending
  | .refusal refusal :: _ => some refusal
  | _ :: rest => firstRefusal ending rest

/-- The stream takes `count` bytes and then refuses with `refusal`. -/
structure Breaks (writer : Writer) (count : Nat) (refusal : WriteRefusal) : Prop where
  holds : room writer.script = count
  refuses : firstRefusal writer.ending writer.script = some refusal

/-- An offer is taken whole if there is room for it before the first refusal, and otherwise as far as there is
room. -/
theorem offer_room {ending : Option WriteRefusal} {script : List Acceptance} {refusal : WriteRefusal}
    (refuses : firstRefusal ending script = some refusal) (data : List Byte) (accepted : Array Byte) :
    (offer ending script data accepted).1 = (if data.length ≤ room script then none else some refusal.failure) ∧
      (offer ending script data accepted).2.2.toList = accepted.toList ++ data.take (room script) ∧
      (data.length ≤ room script → room (offer ending script data accepted).2.1 = room script - data.length ∧
        firstRefusal ending (offer ending script data accepted).2.1 = some refusal) := by
  fun_induction offer ending script data accepted with
  | case1 script accepted => simp [refuses]
  | case2 byte data accepted endless => cases refuses.symm.trans endless
  | case3 byte data accepted refusal' ends =>
    cases refuses.symm.trans ends
    simp [room]
  | case4 script byte data accepted ih => exact ih refuses
  | case5 script byte data accepted refusal' =>
    cases refuses
    simp [room]
  | case6 bytes script byte data accepted short =>
    have enough : (byte :: data).length ≤ bytes + room script := by
      rw [List.length_cons]
      omega
    simp only [room, firstRefusal, List.take_of_length_le enough]
    refine ⟨(if_pos enough).symm, by simp, fun _ => ⟨?_, refuses⟩⟩
    rw [List.length_cons]
    omega
  | case7 bytes script byte data accepted long ih =>
    obtain ⟨failed, taken, left⟩ := ih refuses
    have enough : (byte :: data).length ≤ bytes + room script ↔
        ((byte :: data).drop bytes).length ≤ room script := by
      rw [List.length_drop]
      omega
    simp only [room, enough]
    refine ⟨failed, ?_, fun within => ?_⟩
    · rw [taken, List.take_add]
      simp
    · obtain ⟨room', refuses'⟩ := left within
      refine ⟨?_, refuses'⟩
      rw [room', List.length_drop, List.length_cons]
      omega

variable {writer : Writer} {refusal : WriteRefusal} {count : Nat} {data : List Byte}

theorem Breaks.push_enough (breaks : writer.Breaks count refusal) (enough : data.length ≤ count) :
    ∃ after, writer.push data = (none, after) ∧ after.Breaks (count - data.length) refusal ∧
      after.accepted.toList = writer.accepted.toList ++ data := by
  obtain ⟨rfl, refuses⟩ := breaks
  obtain ⟨failed, taken, left⟩ := offer_room refuses data writer.accepted
  rw [if_pos enough] at failed
  rw [List.take_of_length_le enough] at taken
  obtain ⟨holds, refuses⟩ := left enough
  exact ⟨_, Prod.ext failed rfl, ⟨holds, refuses⟩, taken⟩

theorem Breaks.push_short (breaks : writer.Breaks count refusal) (short : count < data.length) :
    ∃ after, writer.push data = (some refusal.failure, after) ∧
      after.accepted.toList = writer.accepted.toList ++ data.take count := by
  obtain ⟨rfl, refuses⟩ := breaks
  obtain ⟨failed, taken, -⟩ := offer_room refuses data writer.accepted
  rw [if_neg (Nat.not_le.mpr short)] at failed
  exact ⟨_, Prod.ext failed rfl, taken⟩

end Writer
end TypedWire
