import TypedWire.Proofs.Evidence
import TypedWire.Proofs.FirstRefusal

/-! No codec sees how a stream cuts its bytes into chunks. A stream that fails behind the bytes that a codec
takes is as good as one that goes on; otherwise the codec fails with its failure. -/

namespace TypedWire

variable {α : Type}

/-- The input ended too early. -/
def EndsEarly (result : Except DecodeError α) : Prop :=
  ∃ error place, result = .error error ∧ error.root = .unexpectedEof place

theorem Starved.endsEarly {bound : Nat} {result : Except DecodeError α} (starved : Starved bound result) :
    EndsEarly result := by
  obtain ⟨error, place, failed, root, -⟩ := starved
  exact ⟨error, place, failed, root⟩

theorem Fetch.refused_eq_io (kind : Fetch) (place : Nat) (bytes : List Byte) {failure : IoFailure}
    (visible : failure.kind ≠ .unexpectedEof) : kind.refused place bytes (.failed failure) = .io place failure := by
  cases kind with
  | exactly => exact if_neg visible
  | block => rfl

namespace Plan

variable {plan : Plan α} {limits : DecodeLimits} {place count : Nat} {bytes : List Byte}

/-- What the first `count` bytes settle is the outcome over all of them. -/
theorem Settles.outcome_of_take {taken rest : List Byte} {result : Except DecodeError α}
    (settles : plan.Settles limits place taken result) (split : bytes.take count = taken ++ rest) :
    plan.outcome limits place bytes = ⟨result, place + taken.length, rest ++ bytes.drop count⟩ := by
  have outcome := settles.decided (rest ++ bytes.drop count)
  rwa [← List.append_assoc, ← split, List.take_append_drop] at outcome

/-- If the first `count` bytes are too few and all of them are not, more than `count` are taken. -/
theorem lt_of_starved_take {bound : Nat} (starved : Starved bound (plan.outcome limits place (bytes.take count)).result)
    (complete : ¬ EndsEarly (plan.outcome limits place bytes).result) :
    count + (plan.outcome limits place bytes).left.length < bytes.length := by
  rcases plan.settles_or_starved limits place bytes with ⟨taken, rest, result, rfl, settles⟩ | starved'
  · rw [settles.decided] at complete ⊢
    rw [List.length_append]
    apply Nat.add_lt_add_right
    apply Nat.lt_of_not_le
    intro fits
    rw [List.take_append, List.take_of_length_le fits, settles.decided] at starved
    exact complete starved.endsEarly
  · exact absurd starved'.endsEarly complete

end Plan

/-- What the bytes taken settle is not that there are too few, where the input attests all errors. -/
theorem Plan.Settles.not_endsEarly {plan : Plan α} {limits : DecodeLimits} {place : Nat} {taken : List Byte}
    {result : Except DecodeError α} (settles : plan.Settles limits place taken result)
    (honest : ∀ front, Decoder.Honest limits front plan.run) : ¬ EndsEarly result := by
  rintro ⟨error, far, rfl, root⟩
  -- With enough bytes behind those taken, the end of the input is too far from where it is said to be.
  let front : List Byte := List.replicate place 0
  let bytes := taken ++ List.replicate (far + 8) 0
  have serves : (Source.mk (.ofBytes bytes) place limits).Serves limits front.length bytes :=
    ⟨Reader.steady_ofBytes bytes, Reader.held_ofBytes bytes, by simp [front], rfl⟩
  obtain ⟨after, read, -⟩ := plan.read_run serves
  rw [show front.length = place by simp [front], settles.decided] at read
  have attested := honest front _ after bytes error serves read
  rw [root] at attested
  obtain ⟨-, close⟩ := attested
  simp only [bytes, List.length_append, List.length_replicate] at close
  omega

namespace Codec

variable {t : Ty} {limits : DecodeLimits}

theorem not_endsEarly_of_settles {codec : Codec t} {plan : Plan t.Value} (planned : plan.run = codec.decode)
    {taken : List Byte} {result : Except DecodeError t.Value} (settles : plan.Settles limits 0 taken result) :
    ¬ EndsEarly result := by
  apply settles.not_endsEarly
  intro front
  rw [planned]
  exact codec.honest_decode limits front

/-- Decoding is the same over every stream that delivers the same bytes, in chunks of any sizes and with any
interruptions: the outcome, the offset, and what is left. Over a stream that fails after `count` bytes it is the same
too, if no more are taken and the bytes did not end too early; otherwise it fails, with the failure of the stream at
the root and a place within these bytes. -/
theorem read_any_reader (codec : Codec t) {limits : DecodeLimits} {bytes : List Byte}
    {result : Except DecodeError t.Value} {after : Source}
    (whole : codec.read (.ofBytes bytes limits) = (result, after)) :
    (∀ reader : Reader, reader.Steady → reader.held = bytes →
      ∃ final, codec.read (.ofReader reader limits) = (result, final) ∧ final.offset = after.offset ∧
        final.reader.held = after.reader.held) ∧
    ∀ (reader : Reader) (count : Nat) (failure : IoFailure), failure.kind ≠ .unexpectedEof →
      reader.Breaks (bytes.take count) (.failed failure) →
      (¬ EndsEarly result ∧ bytes.length ≤ count + after.reader.held.length →
        ∃ final, codec.read (.ofReader reader limits) = (result, final) ∧ final.offset = after.offset) ∧
      (EndsEarly result ∨ count + after.reader.held.length < bytes.length →
        ∃ error final offset, codec.read (.ofReader reader limits) = (.error error, final) ∧
          error.root = .io offset failure ∧ offset ≤ count) := by
  obtain ⟨plan, planned⟩ := codec.planned_decode
  obtain ⟨after', read, serves⟩ := plan.read_run (Source.serves_ofBytes bytes limits)
  rw [planned] at read
  obtain ⟨rfl, rfl⟩ : result = _ ∧ after = after' := Prod.mk.inj (whole.symm.trans read)
  refine ⟨fun reader steady holds => ?_, fun reader count failure visible breaks => ?_⟩
  · have serves' : (Source.ofReader reader limits).Serves limits 0 bytes := ⟨steady, holds, rfl, rfl⟩
    obtain ⟨final, read', served⟩ := plan.read_run serves'
    rw [planned] at read'
    exact ⟨final, read', served.place.trans serves.place.symm, served.holds.trans serves.holds.symm⟩
  have breaks' : (Source.ofReader reader limits).Breaks limits 0 (bytes.take count) (.failed failure) :=
    ⟨breaks, rfl, rfl⟩
  rcases plan.settles_or_refused breaks' with ⟨taken, rest, result, final, split, settles, read', broken⟩ |
    ⟨starved, error, final, read', kind, start, got, root, near⟩
  · have outcome := settles.outcome_of_take split
    rw [planned] at read'
    rw [outcome] at serves ⊢
    refine ⟨fun _ => ⟨final, read', broken.place.trans serves.place.symm⟩, ?_⟩
    rintro (early | beyond)
    · exact absurd early (not_endsEarly_of_settles planned settles)
    · have parts := congrArg List.length split
      rw [List.length_take, List.length_append] at parts
      rw [serves.holds, List.length_append, List.length_drop] at beyond
      omega
  · rw [planned] at read'
    rw [kind.refused_eq_io start got visible] at root
    constructor
    · rintro ⟨complete, enough⟩
      have more := Plan.lt_of_starved_take starved complete
      rw [← serves.holds] at more
      exact absurd enough (Nat.not_le.mpr more)
    · intro _
      have bound := List.length_take_le count bytes
      exact ⟨error, final, start, read', root, by omega⟩

/-- A flag and a text, with one more byte behind them, from a stream that fails at that byte and from one that fails
in the text. -/
theorem read_any_reader_pair :
    let behind : Reader := ⟨[.chunk [1, 1], .interrupted, .chunk [0x61]], .failed ⟨.timedOut, "late"⟩, []⟩
    let within : Reader := ⟨[.chunk [1], .interrupted, .chunk [1]], .failed ⟨.timedOut, "late"⟩, []⟩
    (∃ final, (Codec.pair .bool .text).read (.ofReader behind .standard) = (.ok (true, "a"), final) ∧
        final.offset = 3) ∧
      ∃ error final offset, (Codec.pair .bool .text).read (.ofReader within .standard) = (.error error, final) ∧
        error.root = .io offset ⟨.timedOut, "late"⟩ ∧ offset ≤ 2 := by
  intro behind within
  have whole : (Codec.pair .bool .text).read (.ofBytes [1, 1, 0x61, 7] .standard) =
      (.ok (true, "a"), ⟨⟨[.chunk [7]], .endOfInput, []⟩, 3, .standard⟩) := rfl
  obtain ⟨-, broken⟩ := read_any_reader (Codec.pair .bool .text) whole
  obtain ⟨enough, -⟩ := broken behind 3 ⟨.timedOut, "late"⟩ (by decide) ⟨rfl, rfl⟩
  obtain ⟨-, short⟩ := broken within 2 ⟨.timedOut, "late"⟩ (by decide) ⟨rfl, rfl⟩
  exact ⟨enough ⟨by simp [EndsEarly], by decide⟩, short (.inr (by decide))⟩

end Codec
end TypedWire
