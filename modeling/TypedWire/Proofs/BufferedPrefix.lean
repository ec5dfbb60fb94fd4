import TypedWire.Proofs.PrefixGrammar
import TypedWire.Proofs.Reading

/-! A prefix is read from a stream byte by byte and only then decoded; a buffer is decoded as it stands.
Both come to the same. -/

namespace TypedWire

private theorem Varint.maxLength_le_of_decodeFrom {index value : Nat} {bytes : List Byte}
    (refused : decodeFrom index value bytes = .error .overflow) : maxLength ≤ index + bytes.length := by
  induction bytes generalizing index value with
  | nil =>
    by_cases late : maxLength ≤ index
    · exact late
    · simp [decodeFrom, late] at refused
  | cons byte rest ih =>
    rw [decodeFrom] at refused
    rw [List.length_cons]
    by_cases late : maxLength ≤ index
    · omega
    by_cases wide : index + 1 = maxLength ∧ 1 < byte.toNat % 128
    · omega
    by_cases low : byte.toNat < 128
    · simp [late, wide, low] at refused
    · simp only [late, wide, low, if_false] at refused
      have := ih refused
      omega

theorem Varint.maxLength_le_of_overflow {bytes : List Byte} (refused : decode bytes = .error .overflow) :
    maxLength ≤ bytes.length := by
  have long := maxLength_le_of_decodeFrom refused
  rwa [Nat.zero_add] at long

namespace Decoder

open Varint (maxLength decode)

variable {source : Source} {limits : DecodeLimits} {start place : Nat} {bytes : List Byte}

/-- What comes of reading the bytes that begin at `start`, by what the buffer of them is decoded as. -/
def AsDecoded (limits : DecodeLimits) (start : Nat) (bytes : List Byte) (outcome : Except DecodeError Nat × Source) :
    Prop :=
  match decode bytes with
  | .ok (value, count) => outcome.1 = .ok value ∧ outcome.2.Serves limits (start + count) (bytes.drop count)
  | .error .truncated =>
    outcome.1 = .error (.unexpectedEof (start + bytes.length)) ∧
      outcome.2.Serves limits (start + bytes.length) []
  | .error .overflow =>
    outcome.1 = .error (.malformedVarint start) ∧
      outcome.2.Serves limits (start + maxLength) (bytes.drop maxLength)

theorem asDecoded_of_ok {value count : Nat} {outcome : Except DecodeError Nat × Source}
    (decoded : decode bytes = .ok (value, count)) :
    AsDecoded limits start bytes outcome ↔
      outcome.1 = .ok value ∧ outcome.2.Serves limits (start + count) (bytes.drop count) := by
  rw [AsDecoded, decoded]

theorem asDecoded_of_truncated {outcome : Except DecodeError Nat × Source}
    (decoded : decode bytes = .error .truncated) :
    AsDecoded limits start bytes outcome ↔
      outcome.1 = .error (.unexpectedEof (start + bytes.length)) ∧
        outcome.2.Serves limits (start + bytes.length) [] := by
  rw [AsDecoded, decoded]

theorem asDecoded_of_overflow {outcome : Except DecodeError Nat × Source}
    (decoded : decode bytes = .error .overflow) :
    AsDecoded limits start bytes outcome ↔
      outcome.1 = .error (.malformedVarint start) ∧
        outcome.2.Serves limits (start + maxLength) (bytes.drop maxLength) := by
  rw [AsDecoded, decoded]

theorem read_word_short (w : Width) (serves : source.Serves limits place bytes) (short : bytes.length < w.bytes) :
    ∃ after, (word w).read source = (.error (.unexpectedEof place), after) ∧ after.Serves limits place [] := by
  obtain ⟨after, read, serves'⟩ := read_exactly_short serves short
  refine ⟨after, ?_, serves'⟩
  rw [word, read_bind, read]

/-- Reading on is as decoding what has been seen together with what still comes. -/
private theorem asDecoded_varintFrom (more : Nat) {seen : List Byte} (high : ∀ byte ∈ seen, 128 ≤ byte.toNat)
    (counted : seen.length + more = maxLength) (serves : source.Serves limits (start + seen.length) bytes) :
    AsDecoded limits start (seen ++ bytes) ((varintFrom start more seen).read source) := by
  -- By the number of bytes that the prefix may still take; `seen` are those that it has taken, none of them the last.
  induction more generalizing seen source bytes with
  | zero =>
    have full : seen.length = maxLength := counted
    rw [asDecoded_of_overflow (Varint.decode_overflow high (Nat.le_of_eq full.symm) bytes), ← full, List.drop_left]
    exact ⟨rfl, serves⟩
  | succ more ih =>
    rw [varintFrom, read_bind]
    cases bytes with
    | nil =>
      obtain ⟨after, (read : byte.read source = _), serves'⟩ := read_word_short .one serves (by decide)
      have cut : decode seen = .error .truncated :=
        Varint.decode_eq_truncated_iff.mpr ⟨by omega, fun byte member =>
          (Varint.getLsbD_seven_iff byte).mpr (high byte member)⟩
      rw [read, List.append_nil, asDecoded_of_truncated cut]
      exact ⟨rfl, serves'⟩
    | cons byte rest =>
      obtain ⟨after, read, serves'⟩ := reads_byte byte _ _ _ serves
      have onward : seen ++ byte :: rest = (seen ++ [byte]) ++ rest := by simp
      have length : (seen ++ [byte]).length = seen.length + 1 := by simp
      rw [List.length_singleton, Nat.add_assoc, ← length] at serves'
      rw [read]
      by_cases low : byte.toNat < 128
      · simp only [if_pos low]
        cases decoded : decode (seen ++ [byte]) with
        | ok found =>
          have denotes := Varint.denotes_of_decode high decoded
          rw [onward, asDecoded_of_ok (denotes.decode_append rest), List.drop_left]
          exact ⟨rfl, serves'⟩
        | error fault =>
          -- Fewer than ten groups always have room, so this was the tenth.
          have long := Varint.maxLength_le_of_overflow (Varint.decode_fault high low decoded [])
          have tenth : (seen ++ [byte]).length = maxLength := by omega
          rw [asDecoded_of_overflow (Varint.decode_fault high low decoded rest), ← tenth, onward, List.drop_left]
          exact ⟨rfl, serves'⟩
      · simp only [if_neg low]
        rw [onward]
        exact ih (Varint.high_concat high low) (by omega) serves'

theorem asDecoded_varint (serves : source.Serves limits place bytes) :
    AsDecoded limits place bytes (varint.read source) := by
  have unseen : ∀ byte ∈ ([] : List Byte), 128 ≤ byte.toNat := by simp
  rw [varint, read_bind, read_offset, serves.place]
  exact asDecoded_varintFrom maxLength unseen (Nat.zero_add _) serves

/-- A source whose stream delivers some bytes and then ends, in whatever chunks, is read as the buffer of these bytes
is decoded. The number is that of the buffer, and the source is left behind its last byte; a buffer that is cut short
is found out at its end; one with too many bytes or bits is refused where it begins, and ten of its bytes are taken. -/
theorem varint_as_decoded (serves : source.Serves limits place bytes) :
    (∀ value count, decode bytes = .ok (value, count) → count ≤ bytes.length ∧
      ∃ after, varint.read source = (.ok value, after) ∧
        after.Serves limits (place + count) (bytes.drop count)) ∧
    (decode bytes = .error .truncated →
      ∃ after, varint.read source = (.error (.unexpectedEof (place + bytes.length)), after) ∧
        after.Serves limits (place + bytes.length) []) ∧
    (decode bytes = .error .overflow → 10 ≤ bytes.length ∧
      ∃ after, varint.read source = (.error (.malformedVarint place), after) ∧
        after.Serves limits (place + 10) (bytes.drop 10)) := by
  have outcome := asDecoded_varint serves
  refine ⟨fun value count decoded => ?_, fun decoded => ?_, fun decoded => ?_⟩
  · obtain ⟨result, serves'⟩ := (asDecoded_of_ok decoded).mp outcome
    exact ⟨(Varint.decode_eq_ok_iff.mp decoded).within, _, Prod.ext result rfl, serves'⟩
  · obtain ⟨result, serves'⟩ := (asDecoded_of_truncated decoded).mp outcome
    exact ⟨_, Prod.ext result rfl, serves'⟩
  · obtain ⟨result, serves'⟩ := (asDecoded_of_overflow decoded).mp outcome
    exact ⟨Varint.maxLength_le_of_overflow decoded, _, Prod.ext result rfl, serves'⟩

/-- The number 300 and a byte behind it, from a stream that is interrupted inside the number; its first byte alone;
and twelve bytes that each announce another one. -/
theorem varint_as_decoded_interrupted :
    (∃ after, varint.read ⟨⟨[.chunk [0xAC], .interrupted, .chunk [0x02, 0x7F]], .endOfInput, []⟩, 5, .standard⟩ =
        (.ok 300, after) ∧ after.Serves .standard 7 [0x7F]) ∧
      (∃ after, varint.read (.ofBytes [0xAC] .standard) = (.error (.unexpectedEof 1), after) ∧
        after.Serves .standard 1 []) ∧
      ∃ after, varint.read (.ofBytes (List.replicate 12 0x80) .standard) = (.error (.malformedVarint 0), after) ∧
        after.Serves .standard 10 [0x80, 0x80] := by
  have serves : Source.Serves ⟨⟨[.chunk [0xAC], .interrupted, .chunk [0x02, 0x7F]], .endOfInput, []⟩, 5, .standard⟩
      .standard 5 [0xAC, 0x02, 0x7F] := ⟨⟨by simp, rfl, rfl⟩, rfl, rfl, rfl⟩
  obtain ⟨whole, -, -⟩ := varint_as_decoded serves
  obtain ⟨-, cut, -⟩ := varint_as_decoded (Source.serves_ofBytes [0xAC] .standard)
  obtain ⟨-, -, long⟩ := varint_as_decoded (Source.serves_ofBytes (List.replicate 12 0x80) .standard)
  exact ⟨(whole 300 2 rfl).2, cut rfl, (long rfl).2⟩

end Decoder
end TypedWire
