import TypedWire.Proofs.DecoderParts
import TypedWire.Proofs.Frame
import TypedWire.Proofs.Numerals
import TypedWire.Proofs.SteadySource
import TypedWire.Proofs.Text

/-! Where a decoder yields a value, it has taken some bytes from the front, and what they and the value have
to do with each other goes from decoders to their sequences. -/

namespace TypedWire.Decoder

variable {α β : Type} {limits : DecodeLimits}

/-- Where the decoder yields a value, it has taken bytes from the front of what the source delivers that stand in
the relation `P` to the value. -/
def Takes (limits : DecodeLimits) (decoder : Decoder α) (P : List Byte → α → Prop) : Prop :=
  ∀ (source after : Source) (place : Nat) (bytes : List Byte) (value : α), source.Serves limits place bytes →
    decoder.read source = (.ok value, after) →
      ∃ taken rest, bytes = taken ++ rest ∧ after.Serves limits (place + taken.length) rest ∧ P taken value

theorem takes_pure {P : List Byte → α → Prop} {value : α} (holds : P [] value) : Takes limits (pure value) P := by
  intro source after place bytes value serves read
  cases read
  exact ⟨[], bytes, rfl, serves, holds⟩

theorem takes_throw {P : List Byte → α → Prop} (error : DecodeError) : Takes limits (throw error) P := by
  intro source after place bytes value serves read
  cases read

theorem Takes.imp {decoder : Decoder α} {P Q : List Byte → α → Prop} (takes : Takes limits decoder P)
    (step : ∀ taken value, P taken value → Q taken value) : Takes limits decoder Q := by
  intro source after place bytes value serves read
  obtain ⟨taken, rest, split, serves', holds⟩ := takes _ _ _ _ _ serves read
  exact ⟨taken, rest, split, serves', step _ _ holds⟩

theorem Takes.bind {first : Decoder α} {second : α → Decoder β} {P : List Byte → α → Prop}
    {Q : List Byte → β → Prop} (one : Takes limits first P)
    (two : ∀ front a, P front a → Takes limits (second a) fun back b => Q (front ++ back) b) :
    Takes limits (first >>= second) Q := by
  intro source after place bytes value serves read
  obtain ⟨a, between, read, read'⟩ := exists_of_read_bind read
  obtain ⟨front, rest, rfl, serves, holds⟩ := one _ _ _ _ _ serves read
  obtain ⟨back, rest, rfl, serves, holds'⟩ := two front a holds _ _ _ _ _ serves read'
  refine ⟨front ++ back, rest, (List.append_assoc ..).symm, ?_, holds'⟩
  rwa [List.length_append, ← Nat.add_assoc]

/-- What the second decoder does may cost no bytes. -/
theorem Takes.check {first : Decoder α} {second : α → Decoder β} {P : List Byte → α → Prop}
    {Q : List Byte → β → Prop} (one : Takes limits first P)
    (two : ∀ front a, P front a → Takes limits (second a) fun back b => back = [] ∧ Q front b) :
    Takes limits (first >>= second) Q := by
  refine one.bind fun front a holds => (two front a holds).imp ?_
  rintro back b ⟨rfl, holds⟩
  rwa [List.append_nil]

theorem Takes.map {decoder : Decoder α} {P : List Byte → α → Prop} {Q : List Byte → β → Prop} {f : α → β}
    (takes : Takes limits decoder P) (step : ∀ taken a, P taken a → Q taken (f a)) :
    Takes limits (do return f (← decoder)) Q :=
  takes.check fun front a holds => takes_pure ⟨rfl, step front a holds⟩

theorem Takes.labeled {decoder : Decoder α} {P : List Byte → α → Prop} (label : String)
    (takes : Takes limits decoder P) : Takes limits (decoder.labeled label) P := by
  intro source after place bytes value serves read
  exact takes _ _ _ _ _ serves (read_labeled_eq_ok_iff.mp read)

theorem Takes.of_offset {next : Nat → Decoder α} {P : List Byte → α → Prop}
    (takes : ∀ start, Takes limits (next start) P) : Takes limits (offset >>= next) P := by
  intro source after place bytes value serves read
  exact takes source.offset _ _ _ _ _ serves read

/-- A repetition takes as many parts as there are values. -/
theorem Takes.replicate {decoder : Decoder α} {P : List Byte → α → Prop} (takes : Takes limits decoder P)
    (count : Nat) :
    Takes limits (replicate count decoder) fun taken values =>
      values.length = count ∧ ∃ parts, List.Forall₂ P parts values ∧ taken = parts.flatten := by
  induction count with
  | zero => exact takes_pure ⟨rfl, [], .nil, rfl⟩
  | succ count ih =>
    rw [replicate_succ]
    refine takes.bind fun front value holds => ih.map ?_
    rintro back values ⟨counted, parts, placed, rfl⟩
    exact ⟨congrArg (· + 1) counted, front :: parts, .cons holds placed, rfl⟩

theorem Takes.accepts {t : Ty} {codec : Codec t} {P : List Byte → t.Value → Prop}
    (takes : Takes .standard codec.decode P) {bytes : List Byte} {v : t.Value}
    (accepts : codec.ofBytes bytes = .ok v) : P bytes v := by
  obtain ⟨after, read, nothing⟩ := Codec.ofBytes_eq_ok_iff.mp accepts
  obtain ⟨taken, rest, split, serves, holds⟩ := takes _ _ _ _ _ (Source.serves_ofBytes bytes .standard) read
  have whole : bytes = taken := by
    rw [split, ← serves.holds, nothing, List.append_nil]
  rwa [whole]

theorem takes_exactly (count : Nat) :
    Takes limits (exactly count) fun taken bytes => taken = bytes ∧ taken.length = count := by
  intro source after place bytes value serves read
  by_cases enough : count ≤ bytes.length
  · obtain ⟨after', read', serves'⟩ := read_exactly serves enough
    obtain ⟨same, rfl⟩ := Prod.mk.inj (read.symm.trans read')
    cases same
    refine ⟨bytes.take count, bytes.drop count, (List.take_append_drop ..).symm, ?_, rfl, by simp [enough]⟩
    rwa [List.length_take_of_le enough]
  · obtain ⟨after', read', -⟩ := read_exactly_short serves (Nat.lt_of_not_le enough)
    cases read.symm.trans read'

theorem takes_block (count : Nat) :
    Takes limits (block count) fun taken bytes => taken = bytes ∧ taken.length = count := by
  intro source after place bytes value serves read
  by_cases enough : count ≤ bytes.length
  · obtain ⟨after', read', serves'⟩ := read_block serves enough
    obtain ⟨same, rfl⟩ := Prod.mk.inj (read.symm.trans read')
    cases same
    refine ⟨bytes.take count, bytes.drop count, (List.take_append_drop ..).symm, ?_, rfl, by simp [enough]⟩
    rwa [List.length_take_of_le enough]
  · obtain ⟨after', read', -⟩ := read_block_short serves (Nat.lt_of_not_le enough)
    cases read.symm.trans read'

theorem takes_word (w : Width) : Takes limits (word w) fun taken v => taken = bigEndian w.bytes v.toNat := by
  refine (takes_exactly w.bytes).map ?_
  rintro taken bytes ⟨rfl, sized⟩
  have bound : ofBigEndian taken < 2 ^ w.bits := by
    rw [← w.pow_bytes, ← sized]
    exact ofBigEndian_lt taken
  rw [BitVec.toNat_ofNat, Nat.mod_eq_of_lt bound, ← sized, bigEndian_ofBigEndian]

theorem takes_byte : Takes limits byte fun taken b => taken = [b] := by
  refine (takes_word .one).imp ?_
  rintro taken b rfl
  exact bigEndian_byte b

theorem takes_flag : Takes limits flag fun taken value => taken = [Emission.flagByte value] := by
  refine Takes.of_offset fun start => takes_byte.check ?_
  rintro taken b rfl
  by_cases no : b = 0
  · rw [if_pos no, no]
    exact takes_pure ⟨rfl, rfl⟩
  · by_cases yes : b = 1
    · rw [if_neg no, if_pos yes, yes]
      exact takes_pure ⟨rfl, rfl⟩
    · rw [if_neg no, if_neg yes]
      exact takes_throw _

private theorem takes_varintFrom (start more : Nat) {seen : List Byte} (high : ∀ byte ∈ seen, 128 ≤ byte.toNat) :
    Takes limits (varintFrom start more seen) fun taken n => Varint.Denotes (seen ++ taken) n := by
  -- By the number of bytes that the length may still take; `seen` are those that it has taken.
  induction more generalizing seen with
  | zero => exact takes_throw _
  | succ more ih =>
    refine takes_byte.bind ?_
    rintro taken b rfl
    by_cases low : b.toNat < 128
    · rw [if_pos low]
      cases decoded : Varint.decode (seen ++ [b]) with
      | error fault => exact takes_throw _
      | ok read => exact takes_pure (Varint.denotes_of_decode high decoded)
    · rw [if_neg low]
      refine (ih (Varint.high_concat high low)).imp fun back n denotes => ?_
      rwa [List.append_assoc] at denotes

theorem takes_varint : Takes limits varint Varint.Denotes :=
  Takes.of_offset fun start => takes_varintFrom start _ (by simp)

private theorem takes_bounded (start value : Nat) :
    Takes limits (bounded start value) fun taken n => taken = [] ∧ n = value ∧ n ≤ limits.maxLength.toNat := by
  intro source after place bytes n serves read
  rw [read_bounded, serves.bounds] at read
  by_cases within : value ≤ limits.maxLength.toNat
  · rw [if_pos within] at read
    cases read
    exact ⟨[], bytes, rfl, serves, rfl, rfl, within⟩
  · rw [if_neg within] at read
    cases read

/-- Whatever is put together from reads, checks, sequencing and labels takes bytes from the front. -/
theorem Built.takes {decoder : Decoder α} (built : Built decoder) : Takes limits decoder fun _ _ => True := by
  induction built with
  | pure value => exact takes_pure trivial
  | throw error => exact takes_throw error
  | offset => exact Takes.of_offset fun start => takes_pure trivial
  | bounded start value => exact (takes_bounded start value).imp fun _ _ _ => trivial
  | exactly count => exact (takes_exactly count).imp fun _ _ _ => trivial
  | block count => exact (takes_block count).imp fun _ _ _ => trivial
  | bind _ _ one two => exact one.bind fun _ value _ => two value
  | labeled label _ ih => exact ih.labeled label

theorem takes_length :
    Takes limits length fun taken n => Varint.Denotes taken n ∧ n ≤ limits.maxLength.toNat := by
  refine Takes.of_offset fun start => takes_varint.check fun taken value denotes => ?_
  refine (takes_bounded start value).imp ?_
  rintro back n ⟨rfl, rfl, within⟩
  exact ⟨rfl, denotes, within⟩

theorem takes_payload :
    Takes limits (do block (← length)) fun taken bytes =>
      Frame.Spells [.length bytes.length, .data bytes] taken ∧ bytes.length ≤ limits.maxLength.toNat := by
  refine takes_length.bind ?_
  rintro front count ⟨denotes, within⟩
  refine (takes_block count).imp ?_
  rintro back bytes ⟨rfl, rfl⟩
  exact ⟨.length denotes (Frame.spells_data back), within⟩

theorem takes_text :
    Takes limits text fun taken text =>
      Frame.Spells [.length (Utf8.encode text).length, .data (Utf8.encode text)] taken ∧
        (Utf8.encode text).length ≤ limits.maxLength.toNat := by
  refine takes_length.bind ?_
  rintro front count ⟨denotes, within⟩
  refine Takes.of_offset fun start => (takes_block count).check ?_
  rintro back bytes ⟨rfl, rfl⟩
  cases decoded : Utf8.decode back with
  | error fault => exact takes_throw _
  | ok text =>
    have spelled := Utf8.encode_of_decode decoded
    refine takes_pure ⟨rfl, ?_⟩
    rw [spelled]
    exact ⟨.length denotes (Frame.spells_data back), within⟩

theorem takes_gathered {shape : SeqShape} {t : Ty} {decoder : Decoder t.Value} {P : List Byte → t.Value → Prop}
    (takes : Takes limits decoder P) :
    Takes limits (do gathered shape t (← replicate (← length) decoder)) fun taken container =>
      ∃ front parts elements, Varint.Denotes front elements.length ∧ elements.length ≤ limits.maxLength.toNat ∧
        List.Forall₂ P parts elements ∧ taken = front ++ parts.flatten ∧
          shape.gather t elements = .ok container := by
  refine takes_length.bind ?_
  rintro front count ⟨denotes, within⟩
  refine (takes.replicate count).check ?_
  rintro back elements ⟨rfl, parts, placed, rfl⟩
  unfold gathered
  cases gathers : shape.gather t elements with
  | error mismatch => exact takes_throw _
  | ok container => exact takes_pure ⟨rfl, front, parts, elements, denotes, within, placed, rfl, gathers⟩

theorem takes_entries {shape : MapShape} {k : Ty} {entry : Decoder (k.Value × β)}
    {P : List Byte → k.Value × β → Prop} (takes : Takes limits entry P) :
    Takes limits (entries shape k entry) fun taken container =>
      ∃ front parts entries, Varint.Denotes front entries.length ∧ entries.length ≤ limits.maxLength.toNat ∧
        List.Forall₂ P parts entries ∧ taken = front ++ parts.flatten ∧
          container = shape.insertAll k [] entries := by
  rw [entries_eq]
  refine takes_length.bind ?_
  rintro front count ⟨denotes, within⟩
  refine (takes.replicate count).map ?_
  rintro back entries ⟨rfl, parts, placed, rfl⟩
  exact ⟨front, parts, entries, denotes, within, placed, rfl, rfl⟩

end TypedWire.Decoder
