import TypedWire.Proofs.Gathering
import TypedWire.Proofs.Locality
import TypedWire.Proofs.Taking

/-! The error at the root of a failed decoding tells a place in the input and what is wrong there, and so it
is, whatever was read before. -/

namespace TypedWire

/-- What the error says of the input is true of it. Neither a failing stream nor bytes left over are errors of
decoding a string of bytes, and a mapping may refuse what it likes. -/
def DecodeError.Attested (limits : DecodeLimits) (input : List Byte) : DecodeError → Prop
  | .unexpectedEof offset => offset ≤ input.length ∧ input.length ≤ offset + 7
  | .malformedVarint offset => Varint.decode (input.drop offset) = .error .overflow
  | .lengthLimit offset length limit =>
    (∃ used, Varint.decode (input.drop offset) = .ok (length, used)) ∧ limit = limits.maxLength.toNat ∧ limit < length
  | .invalidFlag offset byte => input[offset]? = some byte ∧ byte ≠ 0 ∧ byte ≠ 1
  | .invalidUtf8 offset fault => ∃ start used payload rest,
      Varint.decode (input.drop start) = .ok (payload.length, used) ∧ offset = start + used ∧
        input.drop offset = payload ++ rest ∧ (∀ text, Utf8.encode text ≠ payload) ∧
          fault.validUpTo ≤ payload.length ∧ ∃ text, Utf8.encode text = payload.take fault.validUpTo
  | .elementCount expected found => found ≠ expected
  | .uninhabited => True
  | .mapping _ => True
  | .io _ _ => False
  | .trailingBytes _ _ => False
  | .component _ _ => False

namespace Decoder

variable {α β : Type} {limits : DecodeLimits} {front : List Byte}

/-- Behind `front`, whatever else the source delivers, the input attests the errors of the decoder. -/
def Honest (limits : DecodeLimits) (front : List Byte) (decoder : Decoder α) : Prop :=
  ∀ (source after : Source) (bytes : List Byte) (error : DecodeError), source.Serves limits front.length bytes →
    decoder.read source = (.error error, after) → error.root.Attested limits (front ++ bytes)

/-! ### Decoders in sequence -/

theorem honest_pure (value : α) : Honest limits front (pure value) := by
  intro source after bytes error serves read
  cases read

theorem honest_throw {error : DecodeError} (attested : ∀ bytes, error.root.Attested limits (front ++ bytes)) :
    Honest limits front (throw error : Decoder α) := by
  intro source after bytes error' serves read
  cases read
  exact attested bytes

theorem Honest.bind {first : Decoder α} {second : α → Decoder β} {P : List Byte → α → Prop}
    (one : Honest limits front first) (takes : Takes limits first P)
    (two : ∀ taken a, P taken a → Honest limits (front ++ taken) (second a)) :
    Honest limits front (first >>= second) := by
  intro source after bytes error serves read
  rcases error_of_read_bind read with failed | ⟨a, between, read', failed⟩
  · exact one _ _ _ _ serves failed
  · obtain ⟨taken, rest, rfl, serves', holds⟩ := takes _ _ _ _ _ serves read'
    rw [← List.append_assoc]
    rw [← List.length_append] at serves'
    exact two taken a holds _ _ _ _ serves' failed

theorem Honest.labeled {decoder : Decoder α} (label : String) (honest : Honest limits front decoder) :
    Honest limits front (decoder.labeled label) := by
  intro source after bytes error serves read
  obtain ⟨cause, failed, rfl⟩ := error_of_read_labeled read
  exact honest source after bytes cause serves failed

theorem Honest.of_offset {next : Nat → Decoder α} (honest : Honest limits front (next front.length)) :
    Honest limits front (offset >>= next) := by
  intro source after bytes error serves read
  rw [← serves.place] at honest
  exact honest source after bytes error serves read

theorem Honest.ite {condition : Prop} [Decidable condition] {yes no : Decoder α} (one : Honest limits front yes)
    (other : Honest limits front no) : Honest limits front (if condition then yes else no) := by
  by_cases holds : condition
  · rwa [if_pos holds]
  · rwa [if_neg holds]

theorem Honest.replicate {decoder : Decoder α} (honest : ∀ front, Honest limits front decoder)
    (takes : Takes limits decoder fun _ _ => True) (count : Nat) : Honest limits front (replicate count decoder) := by
  induction count generalizing front with
  | zero => exact honest_pure []
  | succ count ih =>
    rw [replicate_succ]
    refine (honest front).bind takes fun taken value _ => ?_
    exact ih.bind (takes.replicate count) fun more values _ => honest_pure _

/-! ### Bytes -/

theorem honest_exactly {count : Nat} (narrow : count ≤ 8) : Honest limits front (exactly count) := by
  intro source after bytes error serves read
  by_cases enough : count ≤ bytes.length
  · obtain ⟨after', read', -⟩ := read_exactly serves enough
    cases read.symm.trans read'
  · obtain ⟨after', read', -⟩ := read_exactly_short serves (Nat.lt_of_not_le enough)
    cases read.symm.trans read'
    change front.length ≤ (front ++ bytes).length ∧ (front ++ bytes).length ≤ front.length + 7
    rw [List.length_append]
    omega

/-- A payload that ends too early is missed at the end of the input. -/
theorem honest_block (count : Nat) : Honest limits front (block count) := by
  intro source after bytes error serves read
  by_cases enough : count ≤ bytes.length
  · obtain ⟨after', read', -⟩ := read_block serves enough
    cases read.symm.trans read'
  · obtain ⟨after', read', -⟩ := read_block_short serves (Nat.lt_of_not_le enough)
    cases read.symm.trans read'
    change front.length + bytes.length ≤ (front ++ bytes).length ∧
      (front ++ bytes).length ≤ front.length + bytes.length + 7
    rw [List.length_append]
    omega

theorem honest_word (w : Width) : Honest limits front (word w) := by
  have narrow : w.bytes ≤ 8 := by cases w <;> decide
  exact (honest_exactly narrow).bind (takes_exactly w.bytes) fun _ _ _ => honest_pure _

theorem honest_byte : Honest limits front byte := honest_word .one

theorem honest_flag : Honest limits front flag := by
  refine Honest.of_offset (honest_byte.bind takes_byte ?_)
  rintro taken b rfl
  by_cases no : b = 0
  · rw [if_pos no]
    exact honest_pure false
  by_cases yes : b = 1
  · rw [if_neg no, if_pos yes]
    exact honest_pure true
  · rw [if_neg no, if_neg yes]
    exact honest_throw fun bytes => ⟨by simp, no, yes⟩

/-! ### Lengths and what they announce -/

private theorem honest_varintFrom (more : Nat) {seen : List Byte} (high : ∀ byte ∈ seen, 128 ≤ byte.toNat)
    (counted : seen.length + more = Varint.maxLength) :
    Honest limits (front ++ seen) (varintFrom front.length more seen) := by
  -- By the number of bytes that the length may still take; `seen` are those that it has taken, none of them the last.
  induction more generalizing seen with
  | zero =>
    refine honest_throw fun bytes => ?_
    change Varint.decode ((front ++ seen ++ bytes).drop front.length) = .error .overflow
    rw [List.append_assoc, List.drop_left]
    exact Varint.decode_overflow high (Nat.le_of_eq counted.symm) bytes
  | succ more ih =>
    refine honest_byte.bind takes_byte ?_
    rintro taken b rfl
    by_cases low : b.toNat < 128
    · rw [if_pos low]
      cases decoded : Varint.decode (seen ++ [b]) with
      | ok found => exact honest_pure _
      | error fault =>
        refine honest_throw fun bytes => ?_
        change Varint.decode ((front ++ seen ++ [b] ++ bytes).drop front.length) = .error .overflow
        rw [List.append_assoc, List.append_assoc, List.drop_left]
        exact Varint.decode_fault high low decoded bytes
    · rw [if_neg low, List.append_assoc]
      refine ih (Varint.high_concat high low) ?_
      rw [List.length_append, List.length_singleton]
      omega

theorem honest_varint : Honest limits front varint := by
  refine Honest.of_offset ?_
  have whole := @honest_varintFrom limits front Varint.maxLength [] (by simp) (Nat.zero_add _)
  rwa [List.append_nil] at whole

private theorem honest_bounded {taken : List Byte} {value : Nat} (denotes : Varint.Denotes taken value) :
    Honest limits (front ++ taken) (bounded front.length value) := by
  intro source after bytes error serves read
  rw [read_bounded, serves.bounds] at read
  by_cases within : value ≤ limits.maxLength.toNat
  · rw [if_pos within] at read
    cases read
  · rw [if_neg within] at read
    cases read
    refine ⟨⟨taken.length, ?_⟩, rfl, Nat.lt_of_not_le within⟩
    rw [List.append_assoc, List.drop_left]
    exact denotes.decode_append bytes

theorem honest_length : Honest limits front length :=
  Honest.of_offset (honest_varint.bind takes_varint fun _ _ denotes => honest_bounded denotes)

theorem honest_compact : Honest limits front compact := by
  refine honest_varint.bind takes_varint fun taken value _ => ?_
  exact (honest_pure _).ite (honest_throw fun _ => trivial)

theorem honest_text : Honest limits front text := by
  refine honest_length.bind takes_length ?_
  rintro taken count ⟨denotes, -⟩
  refine Honest.of_offset ((honest_block count).bind (takes_block count) ?_)
  rintro payload bytes ⟨rfl, rfl⟩
  cases decoded : Utf8.decode payload with
  | ok text => exact honest_pure text
  | error fault =>
    obtain ⟨illFormed, bound, wellFormed⟩ := Utf8.encode_of_fault decoded
    refine honest_throw fun rest => ?_
    refine ⟨front.length, taken.length, payload, rest, ?_, List.length_append, ?_, illFormed, bound, wellFormed⟩
    · rw [List.append_assoc, List.append_assoc, List.drop_left]
      exact denotes.decode_append _
    · rw [List.append_assoc, List.drop_left]

/-! ### Values -/

theorem honest_mapped (result : Except String α) : Honest limits front (mapped result) := by
  cases result with
  | ok value => exact honest_pure value
  | error text => exact honest_throw fun _ => trivial

theorem honest_gathered (shape : SeqShape) (t : Ty) (elements : List t.Value) :
    Honest limits front (gathered shape t elements) := by
  unfold gathered
  cases gathers : shape.gather t elements with
  | ok container => exact honest_pure container
  | error mismatch =>
    refine honest_throw fun _ => ?_
    exact SeqShape.ne_of_gather gathers

theorem Honest.entry {key : Decoder α} {value : Decoder β} (one : ∀ front, Honest limits front key)
    (two : ∀ front, Honest limits front value) (takes : Takes limits key fun _ _ => True)
    (takes' : Takes limits value fun _ _ => True) : Honest limits front (entry key value) := by
  refine ((one front).labeled "key").bind (takes.labeled "key") fun taken k _ => ?_
  exact ((two _).labeled "value").bind (takes'.labeled "value") fun _ _ _ => honest_pure _

theorem Honest.entries {shape : MapShape} {k : Ty} {entry : Decoder (k.Value × β)}
    (honest : ∀ front, Honest limits front entry) (takes : Takes limits entry fun _ _ => True) :
    Honest limits front (entries shape k entry) := by
  rw [entries_eq]
  refine honest_length.bind takes_length fun taken count _ => ?_
  exact (Honest.replicate honest takes count).bind (takes.replicate count) fun _ _ _ => honest_pure _

end Decoder

namespace Codec

variable {t : Ty}

open Decoder in
theorem honest_decode (codec : Codec t) (limits : DecodeLimits) (front : List Byte) :
    Honest limits front codec.decode := by
  induction codec generalizing front with
  | int sign width => exact honest_word width
  | float p => exact honest_word p.width
  | bool => exact honest_flag
  | unit => exact honest_pure ()
  | never => exact honest_throw fun _ => trivial
  | text => exact honest_text
  | bytes => exact honest_length.bind takes_length fun _ count _ => honest_block count
  | compact name objection => exact honest_compact
  | derived name codec toBase fromBase ih =>
    exact (ih front).bind codec.built_decode.takes fun _ _ _ => honest_mapped _
  | terse name objection codec ih => exact ih front
  | seq shape codec ih =>
    refine honest_length.bind takes_length fun _ count _ => ?_
    exact (Honest.replicate ih codec.built_decode.takes count).bind (codec.built_decode.takes.replicate count)
      fun _ _ _ => honest_gathered _ _ _
  | map shape keyCodec valueCodec ihk ihv =>
    have entry := keyCodec.built_decode.entry valueCodec.built_decode
    exact Honest.entries (fun front => Honest.entry ihk ihv keyCodec.built_decode.takes valueCodec.built_decode.takes)
      entry.takes
  | option codec ih =>
    refine honest_flag.bind takes_flag fun taken there _ => ?_
    cases there with
    | false => exact honest_pure none
    | true => exact ((ih _).labeled "value").bind (codec.built_decode.takes.labeled "value") fun _ _ _ => honest_pure _
  | pair first second iha ihb =>
    refine ((iha front).labeled "first").bind (first.built_decode.takes.labeled "first") fun taken x _ => ?_
    exact ((ihb _).labeled "second").bind (second.built_decode.takes.labeled "second") fun _ _ _ => honest_pure _
  | triple first second third iha ihb ihc =>
    refine ((iha front).labeled "first").bind (first.built_decode.takes.labeled "first") fun taken x _ => ?_
    refine ((ihb _).labeled "second").bind (second.built_decode.takes.labeled "second") fun more y _ => ?_
    exact ((ihc _).labeled "third").bind (third.built_decode.takes.labeled "third") fun _ _ _ => honest_pure _

/-- Where a codec fails on a string of bytes, the input attests the error at the root. -/
theorem attested_of_read (codec : Codec t) {source after : Source} {limits : DecodeLimits} {bytes : List Byte}
    {error : DecodeError} (serves : source.Serves limits 0 bytes)
    (read : codec.read source = (.error error, after)) : error.root.Attested limits bytes :=
  codec.honest_decode limits [] source after bytes error serves read

/-- Where bytes are left over, those before them are accepted. -/
theorem accepts_of_trailing {codec : Codec t} {bytes : List Byte} {v : t.Value} {after : Source}
    (read : codec.read (.ofBytes bytes .standard) = (.ok v, after)) :
    after.offset + after.reader.held.length = bytes.length ∧ codec.ofBytes (bytes.take after.offset) = .ok v := by
  obtain ⟨taken, split, commits⟩ := codec.commits_of_read (Source.serves_ofBytes bytes .standard) read (by simp)
  have serves := Source.serves_ofBytes bytes .standard
  rw [split] at serves
  obtain ⟨after', read', serves⟩ := commits.decided serves
  rw [← split] at read'
  obtain ⟨-, rfl⟩ : Except.ok v = Except.ok v ∧ after = after' := Prod.mk.inj (read.symm.trans read')
  have place : after.offset = taken.length := serves.place.trans (Nat.zero_add _)
  refine ⟨by rw [place, ← List.length_append, ← split], ?_⟩
  rw [place, split, List.take_left]
  have alone := Source.serves_ofBytes taken .standard
  rw [← List.append_nil taken] at alone
  obtain ⟨final, accepts, serves'⟩ := commits.decided alone
  rw [List.append_nil] at accepts
  exact ofBytes_eq_ok_iff.mpr ⟨final, accepts, serves'.holds⟩

/-- What the error at the root says of the input is true of it: whenever a codec fails on a string of bytes, under
whatever limits, and whenever it refuses to take a string of bytes for a value. If it refuses because bytes are left
over, it tells how many there are, and accepts those before them. -/
theorem errors_attested (codec : Codec t) :
    (∀ (limits : DecodeLimits) (bytes : List Byte) (source after : Source) (error : DecodeError),
      source.Serves limits 0 bytes → codec.read source = (.error error, after) → error.root.Attested limits bytes) ∧
    ∀ (bytes : List Byte) (error : DecodeError), codec.ofBytes bytes = .error error →
      error.root.Attested .standard bytes ∨ ∃ consumed remaining, error = .trailingBytes consumed remaining ∧
        consumed + remaining = bytes.length ∧ 0 < remaining ∧ ∃ v, codec.ofBytes (bytes.take consumed) = .ok v := by
  refine ⟨fun limits bytes source after error serves read => codec.attested_of_read serves read, ?_⟩
  intro bytes error refused
  unfold ofBytes at refused
  cases outcome : codec.read (.ofBytes bytes .standard) with
  | mk result after =>
    rw [outcome] at refused
    cases result with
    | error error' =>
      cases refused
      exact .inl (codec.attested_of_read (Source.serves_ofBytes bytes .standard) outcome)
    | ok v =>
      obtain ⟨counted, accepts⟩ := accepts_of_trailing outcome
      cases left : after.reader.held with
      | nil =>
        simp only [left] at refused
        cases refused
      | cons byte rest =>
        simp only [left] at refused
        cases refused
        rw [left] at counted
        exact .inr ⟨_, _, rfl, counted, Nat.succ_pos _, v, accepts⟩

/-- A flag and a text whose second byte is none, and a flag and an empty text with one more byte behind them. -/
theorem errors_attested_text :
    (Codec.pair .bool .text).read (.ofBytes [1, 2, 0x61, 0xFF] .standard) =
        (.error (.component "second" (.invalidUtf8 2 ⟨1, some 1⟩)), ⟨⟨[], .endOfInput, []⟩, 4, .standard⟩) ∧
      (DecodeError.invalidUtf8 2 ⟨1, some 1⟩).Attested .standard [1, 2, 0x61, 0xFF] ∧
      (Codec.pair .bool .text).ofBytes [1, 0, 5] = .error (.trailingBytes 2 1) ∧
      ∃ v, (Codec.pair .bool .text).ofBytes [1, 0] = .ok v := by
  obtain ⟨fails, refuses⟩ := errors_attested (Codec.pair .bool .text)
  have read : (Codec.pair .bool .text).read (.ofBytes [1, 2, 0x61, 0xFF] .standard) =
      (.error (.component "second" (.invalidUtf8 2 ⟨1, some 1⟩)), ⟨⟨[], .endOfInput, []⟩, 4, .standard⟩) := rfl
  have refused : (Codec.pair .bool .text).ofBytes [1, 0, 5] = .error (.trailingBytes 2 1) := rfl
  refine ⟨read, fails _ _ _ _ _ (Source.serves_ofBytes _ _) read, refused, ?_⟩
  rcases refuses _ _ refused with attested | ⟨consumed, remaining, same, -, -, accepts⟩
  · exact attested.elim
  · cases same
    exact accepts

end Codec
end TypedWire
