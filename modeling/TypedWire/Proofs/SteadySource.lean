import TypedWire.Codec.Decode
import TypedWire.Proofs.FirstRefusal

/-! A source serves the bytes that its stream holds, if that delivers them in chunks of any sizes, with any
interruptions, and then ends. What is read depends on these bytes alone. -/

namespace TypedWire

namespace Reader

/-- The stream delivers all that it holds, and then its input ends. -/
structure Steady (reader : Reader) : Prop where
  unrefused : ∀ refusal, Delivery.refusal refusal ∉ reader.script
  ends : reader.ending = .endOfInput
  whole : reader.withheld = []

theorem steady_ofBytes (bytes : List Byte) : (ofBytes bytes).Steady :=
  ⟨by simp [ofBytes], rfl, rfl⟩

@[simp] theorem held_ofBytes (bytes : List Byte) : (ofBytes bytes).held = bytes := by
  simp [ofBytes, held, delivered]

/-- A script without refusals delivers all that it has before it ends. -/
theorem supply_of_unrefused (ending : ReadRefusal) {script : List Delivery}
    (unrefused : ∀ refusal, Delivery.refusal refusal ∉ script) :
    supply script = delivered script ∧ firstRefusal ending script = ending := by
  induction script with
  | nil => exact ⟨rfl, rfl⟩
  | cons delivery script ih =>
    obtain ⟨supplies, ends⟩ := ih fun refusal member => unrefused refusal (List.mem_cons_of_mem _ member)
    cases delivery with
    | chunk bytes => exact ⟨congrArg (bytes ++ ·) supplies, ends⟩
    | interrupted => exact ⟨supplies, ends⟩
    | refusal refusal => exact absurd (List.mem_cons_self ..) (unrefused refusal)

theorem Steady.breaks {reader : Reader} (steady : reader.Steady) : reader.Breaks reader.held .endOfInput := by
  obtain ⟨supplies, ends⟩ := supply_of_unrefused reader.ending steady.unrefused
  refine ⟨?_, ends.trans steady.ends⟩
  rw [held, steady.whole, List.append_nil, supplies]

theorem mem_of_mem_take {ending : ReadRefusal} {count : Nat} {script : List Delivery} {refusal : ReadRefusal}
    (member : .refusal refusal ∈ (take ending count script).2.2) : .refusal refusal ∈ script := by
  induction script generalizing count with
  | nil => cases count <;> exact member
  | cons delivery script ih =>
    cases count with
    | zero => rwa [take_zero] at member
    | succ count =>
      cases delivery with
      | interrupted => exact List.mem_cons_of_mem _ (ih member)
      | refusal _ => exact List.mem_cons_of_mem _ member
      | chunk bytes =>
        simp only [take] at member
        cases beyond : bytes.drop (count + 1) with
        | nil =>
          rw [beyond] at member
          exact List.mem_cons_of_mem _ (ih member)
        | cons byte more =>
          rw [beyond] at member
          obtain _ | ⟨_, member⟩ := member
          exact List.mem_cons_of_mem _ member

/-- A steady stream delivers what it is asked for, if it holds as much, and stays steady. -/
theorem pull_steady (count : Nat) {reader : Reader} (steady : reader.Steady) :
    (reader.pull count).1 =
        (reader.held.take count, if count ≤ reader.held.length then none else some .endOfInput) ∧
      (reader.pull count).2.Steady ∧ (reader.pull count).2.held = reader.held.drop count := by
  have got : (reader.pull count).1 =
      (reader.held.take count, if count ≤ reader.held.length then none else some .endOfInput) := by
    by_cases enough : count ≤ reader.held.length
    · obtain ⟨after, pulled, -⟩ := steady.breaks.pull_enough enough
      rw [pulled, if_pos enough]
    · have short := Nat.lt_of_not_le enough
      rw [steady.breaks.pull_short short, if_neg enough, List.take_of_length_le (Nat.le_of_lt short)]
  have unrefused (refusal : ReadRefusal) : .refusal refusal ∉ (reader.pull count).2.script := fun member =>
    steady.unrefused refusal (mem_of_mem_take member)
  refine ⟨got, ⟨unrefused, steady.ends, steady.whole⟩, ?_⟩
  have parts := held_pull count reader
  rw [got] at parts
  exact List.append_cancel_left (parts.trans (List.take_append_drop count reader.held).symm)

end Reader

/-- The source is at `offset`, and its stream delivers `bytes` and then ends. -/
structure Source.Serves (source : Source) (limits : DecodeLimits) (offset : Nat) (bytes : List Byte) : Prop where
  steady : source.reader.Steady
  holds : source.reader.held = bytes
  place : source.offset = offset
  bounds : source.limits = limits

theorem Source.serves_ofBytes (bytes : List Byte) (limits : DecodeLimits) :
    (Source.ofBytes bytes limits).Serves limits 0 bytes :=
  ⟨Reader.steady_ofBytes bytes, Reader.held_ofBytes bytes, rfl, rfl⟩

namespace Decoder

variable {source : Source} {limits : DecodeLimits} {offset count : Nat} {bytes : List Byte}

private theorem serves_pull (serves : source.Serves limits offset bytes) (count : Nat) {place : Nat} :
    Source.Serves ⟨(source.reader.pull count).2, place, source.limits⟩ limits place (bytes.drop count) := by
  obtain ⟨-, steady, left⟩ := Reader.pull_steady count serves.steady
  exact ⟨steady, left.trans (by rw [serves.holds]), rfl, serves.bounds⟩

private theorem pull_enough (serves : source.Serves limits offset bytes) (enough : count ≤ bytes.length) :
    source.reader.pull count = ((bytes.take count, none), (source.reader.pull count).2) := by
  obtain ⟨got, -, -⟩ := Reader.pull_steady count serves.steady
  rw [serves.holds, if_pos enough] at got
  exact Prod.ext got rfl

private theorem pull_short (serves : source.Serves limits offset bytes) (short : bytes.length < count) :
    source.reader.pull count = ((bytes, some .endOfInput), (source.reader.pull count).2) := by
  obtain ⟨got, -, -⟩ := Reader.pull_steady count serves.steady
  rw [serves.holds, if_neg (Nat.not_le.mpr short), List.take_of_length_le (Nat.le_of_lt short)] at got
  exact Prod.ext got rfl

theorem read_exactly (serves : source.Serves limits offset bytes) (enough : count ≤ bytes.length) :
    ∃ after, (exactly count).read source = (.ok (bytes.take count), after) ∧
      after.Serves limits (offset + count) (bytes.drop count) := by
  refine ⟨_, ?_, serves_pull serves count⟩
  simp only [read, exactly]
  rw [pull_enough serves enough]
  simp [serves.place, enough]

theorem read_exactly_short (serves : source.Serves limits offset bytes) (short : bytes.length < count) :
    ∃ after, (exactly count).read source = (.error (.unexpectedEof offset), after) ∧
      after.Serves limits offset [] := by
  have nothing : bytes.drop count = [] := List.drop_eq_nil_of_le (Nat.le_of_lt short)
  refine ⟨_, ?_, nothing ▸ serves_pull serves count⟩
  simp only [read, exactly]
  rw [pull_short serves short]
  simp [serves.place]

theorem read_block (serves : source.Serves limits offset bytes) (enough : count ≤ bytes.length) :
    ∃ after, (block count).read source = (.ok (bytes.take count), after) ∧
      after.Serves limits (offset + count) (bytes.drop count) := by
  refine ⟨_, ?_, serves_pull serves count⟩
  simp only [read, block]
  rw [pull_enough serves enough]
  simp [serves.place, enough]

theorem read_block_short (serves : source.Serves limits offset bytes) (short : bytes.length < count) :
    ∃ after, (block count).read source = (.error (.unexpectedEof (offset + bytes.length)), after) ∧
      after.Serves limits offset [] := by
  have nothing : bytes.drop count = [] := List.drop_eq_nil_of_le (Nat.le_of_lt short)
  refine ⟨_, ?_, nothing ▸ serves_pull serves count⟩
  simp only [read, block]
  rw [pull_short serves short]
  simp [serves.place]

end Decoder
end TypedWire
