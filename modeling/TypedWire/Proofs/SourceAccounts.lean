import TypedWire.Proofs.BrokenSource

/-! The offset of a source and the bytes that its stream still holds are in step until a read finds the end
of the input. Nothing is left then, and whatever needs a byte finds the same. -/

namespace TypedWire

/-! ### Operations -/

/-- What can be done with a source. -/
inductive Operation : Type where
  | exactly (count : Nat)
  | block (count : Nat)
  | word (w : Width)
  | varint
  | length
  | decode {t : Ty} (codec : Codec t)
  | decodeInto {k v : Ty} (shape : MapShape) (key : Codec k) (value : Codec v) (target : List (k.Value × v.Value))

namespace Operation

/-- What the operation does. Only its failure is kept, not what it reads. -/
def decoder : Operation → Decoder Unit
  | .exactly count => do let _ ← Decoder.exactly count
  | .block count => do let _ ← Decoder.block count
  | .word w => do let _ ← Decoder.word w
  | .varint => do let _ ← Decoder.varint
  | .length => do let _ ← Decoder.length
  | .decode codec => do let _ ← codec.decode
  | .decodeInto shape key value target => fun source =>
    let ((result, _), after) := Codec.readInto shape key value target source
    (result, after)

/-- Where the source is, the operation would take a byte from some input. -/
def Needs (operation : Operation) (source : Source) : Prop :=
  ∃ (other : Source) (bytes : List Byte), other.Serves source.limits source.offset bytes ∧
    (operation.decoder.read other).2.reader.held.length < bytes.length

/-- The operation begins with a read of some bytes. -/
inductive Reads : Operation → Prop
  | exactly {count : Nat} (some : 0 < count) : Reads (.exactly count)
  | block {count : Nat} (some : 0 < count) : Reads (.block count)
  | word (w : Width) : Reads (.word w)
  | varint : Reads .varint
  | length : Reads .length
  | decodeInto {k v : Ty} (shape : MapShape) (key : Codec k) (value : Codec v) (target : List (k.Value × v.Value)) :
      Reads (.decodeInto shape key value target)

end Operation

/-- An operation and what came of it. -/
structure Step where
  before : Source
  operation : Operation
  result : Except DecodeError Unit
  after : Source

def Operation.step (operation : Operation) (source : Source) : Step :=
  let (result, after) := operation.decoder.read source
  ⟨source, operation, result, after⟩

/-- The operations one after the other. Failures are no reason to stop. -/
def Source.steps : Source → List Operation → List Step
  | _, [] => []
  | source, operation :: rest =>
    let step := operation.step source
    step :: step.after.steps rest

/-! ### One step -/

namespace Decoder

variable {α β : Type}

/-- The decoder says that the input ended too early only where it did. -/
def Accountable (decoder : Decoder α) : Prop :=
  ∃ plan : Plan α, plan.run = decoder ∧ ∀ limits place taken result,
    plan.Settles limits place taken result → ¬ EndsEarly result

theorem Built.accountable {decoder : Decoder α} (built : Built decoder)
    (honest : ∀ limits front, Honest limits front decoder) : Accountable decoder := by
  obtain ⟨plan, rfl⟩ := built.planned
  refine ⟨plan, rfl, ?_⟩
  intro limits place taken result settles
  exact settles.not_endsEarly (honest limits)

/-- It is so for whatever follows a decoder without reading. -/
theorem Built.accountable_drop {decoder : Decoder α} (built : Built decoder)
    (honest : ∀ limits front, Honest limits front decoder) : Accountable (do let _ ← decoder) := by
  refine (built.bind fun _ => .pure ()).accountable ?_
  intro limits front
  exact (honest limits front).bind built.takes fun _ _ _ => honest_pure ()

theorem accountable_fetch (kind : Fetch) (count : Nat) : Accountable (do let _ ← kind.decoder count) := by
  refine ⟨.fetch kind [] count fun _ => .done (.ok ()), rfl, ?_⟩
  intro limits place taken result settles
  have decided := settles.decided (List.replicate count 0)
  rw [Plan.outcome, if_pos (by simp)] at decided
  rintro ⟨error, far, rfl, -⟩
  cases congrArg Outcome.result decided

section

variable {decoder : Decoder α} {source : Source} {limits : DecodeLimits} {place : Nat} {bytes : List Byte}

/-- Where nothing is left, the input has ended too early for a decoder that would take a byte. -/
theorem Accountable.endsEarly_iff (accountable : Accountable decoder) (serves : source.Serves limits place []) :
    EndsEarly (decoder.read source).1 ↔ ∃ (other : Source) (bytes : List Byte), other.Serves limits place bytes ∧
      (decoder.read other).2.reader.held.length < bytes.length := by
  obtain ⟨plan, rfl, complete⟩ := accountable
  obtain ⟨after, read, -⟩ := plan.read_run serves
  rw [read]
  rcases plan.settles_or_spent limits place [] with ⟨taken, rest, result, split, settles⟩ | ⟨starved, -⟩
  · -- Settled by no bytes, the plan takes none of any others either.
    obtain ⟨rfl, rfl⟩ := List.append_eq_nil_iff.mp split.symm
    have decided (bytes : List Byte) : plan.outcome limits place bytes = ⟨result, place, bytes⟩ :=
      settles.decided bytes
    rw [decided]
    constructor
    · intro early
      exact absurd early (complete limits place [] result settles)
    · rintro ⟨other, bytes, serves', fewer⟩
      obtain ⟨after', read', left⟩ := plan.read_run serves'
      rw [decided] at left
      rw [read', left.holds] at fewer
      exact absurd fewer (Nat.lt_irrefl _)
  · refine iff_of_true starved.endsEarly ?_
    let other : Source := ⟨.ofBytes [0], place, limits⟩
    have serves' : other.Serves limits place [0] := ⟨Reader.steady_ofBytes [0], Reader.held_ofBytes [0], rfl, rfl⟩
    obtain ⟨after', read', left⟩ := plan.read_run serves'
    refine ⟨other, [0], serves', ?_⟩
    rw [read', left.holds]
    rcases plan.settles_or_spent limits place [0] with ⟨taken, rest, result, split, settles⟩ | ⟨-, nothing, -⟩
    · rw [split, settles.decided, List.length_append]
      have nonempty : taken ≠ [] := by
        rintro rfl
        have decided := settles.decided []
        rw [List.append_nil] at decided
        rw [decided] at starved
        exact complete limits place [] result settles starved.endsEarly
      exact Nat.lt_add_of_pos_left (List.length_pos_iff.mpr nonempty)
    · rw [nothing]
      exact Nat.one_pos

end

end Decoder

namespace Operation

open Decoder

theorem decoder_decodeInto {k v : Ty} (shape : MapShape) (key : Codec k) (value : Codec v)
    (target : List (k.Value × v.Value)) :
    (decodeInto shape key value target).decoder =
      (Decoder.length >>= fun count => replicate count (entry key.decode value.decode) >>= fun entries =>
        pure (shape.insertAll k target entries)) >>= fun _ => pure () := by
  refine ext_read fun source => ?_
  rw [read_bind, ← read_entriesInto]
  simp only [Decoder.read, decoder, Codec.readInto]
  obtain ⟨⟨result, map⟩, after⟩ := entriesInto shape k (entry key.decode value.decode) target source
  cases result <;> rfl

theorem accountable (operation : Operation) : Accountable operation.decoder := by
  cases operation with
  | exactly count => exact accountable_fetch .exactly count
  | block count => exact accountable_fetch .block count
  | word w => exact (built_word w).accountable_drop fun _ _ => honest_word w
  | varint => exact built_varint.accountable_drop fun _ _ => honest_varint
  | length => exact built_length.accountable_drop fun _ _ => honest_length
  | decode codec => exact codec.built_decode.accountable_drop codec.honest_decode
  | decodeInto shape key value target =>
    have built := key.built_decode.entry value.built_decode
    rw [decoder_decodeInto]
    refine (built_length.bind fun count => (built.replicate count).bind fun _ => .pure _).accountable_drop ?_
    intro limits front
    refine honest_length.bind takes_length ?_
    intro taken count _
    refine Honest.bind (Honest.replicate ?_ built.takes count) (built.takes.replicate count) fun _ _ _ => honest_pure _
    intro front
    exact Honest.entry (key.honest_decode limits) (value.honest_decode limits) key.built_decode.takes
      value.built_decode.takes

theorem needs_of_endsEarly (operation : Operation) (source : Source)
    (early : EndsEarly (operation.decoder.read ⟨.ofBytes [], source.offset, source.limits⟩).1) :
    operation.Needs source := by
  have serves : (Source.mk (.ofBytes []) source.offset source.limits).Serves source.limits source.offset [] :=
    ⟨Reader.steady_ofBytes [], Reader.held_ofBytes [], rfl, rfl⟩
  exact (operation.accountable.endsEarly_iff serves).mp early

/-- What reads needs a byte, wherever the source is. -/
theorem Reads.needs {operation : Operation} (reads : operation.Reads) (source : Source) : operation.Needs source := by
  apply needs_of_endsEarly
  cases reads with
  | @exactly count some =>
    obtain ⟨fewer, rfl⟩ := Nat.exists_eq_succ_of_ne_zero (Nat.ne_of_gt some)
    exact ⟨_, source.offset, rfl, rfl⟩
  | @block count some =>
    obtain ⟨fewer, rfl⟩ := Nat.exists_eq_succ_of_ne_zero (Nat.ne_of_gt some)
    exact ⟨_, _, rfl, rfl⟩
  | word w => cases w <;> exact ⟨_, source.offset, rfl, rfl⟩
  | varint => exact ⟨_, source.offset, rfl, rfl⟩
  | length => exact ⟨_, source.offset, rfl, rfl⟩
  | decodeInto shape key value target => exact ⟨_, source.offset, rfl, rfl⟩

end Operation

namespace Source

variable {source : Source} {operations : List Operation} {front rest : List Step} {step : Step}

end Source

/-- A bad flag is read past. A number that is cut off takes what is there, and the offset stays. -/
example : ((Source.ofBytes [2, 1] .standard).steps [.decode .bool, .word .two, .word .one]).map
    (fun step => (step.after.offset, step.after.reader.held)) = [(1, [1]), (1, []), (1, [])] := rfl

end TypedWire
