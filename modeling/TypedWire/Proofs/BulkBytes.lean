import TypedWire.Proofs.Reading
import TypedWire.Proofs.SizeEstimation
import TypedWire.Proofs.Taking

namespace TypedWire

namespace Decoder

variable {source : Source} {limits : DecodeLimits} {place : Nat} {bytes : List Byte}

theorem read_replicate_byte (count : Nat) (serves : source.Serves limits place bytes)
    (enough : count ≤ bytes.length) :
    ∃ after, (replicate count byte).read source = (.ok (bytes.take count), after) ∧
      after.Serves limits (place + count) (bytes.drop count) := by
  induction count generalizing source place bytes with
  | zero => exact ⟨source, rfl, serves⟩
  | succ count ih =>
    cases bytes with
    | nil => cases enough
    | cons byte rest =>
      obtain ⟨between, first, serves⟩ := reads_byte byte source place rest serves
      obtain ⟨after, others, serves⟩ := ih serves (Nat.le_of_succ_le_succ enough)
      refine ⟨after, ?_, ?_⟩
      · rw [replicate_succ, read_bind, first]
        simp only [read_bind, others]
        rfl
      · rwa [Nat.add_right_comm] at serves

/-- Where there are too few bytes, single ones are missed where a block misses the rest. -/
theorem read_replicate_byte_short (count : Nat) (serves : source.Serves limits place bytes)
    (short : bytes.length < count) :
    ∃ after, (replicate count byte).read source = (.error (.unexpectedEof (place + bytes.length)), after) := by
  -- By the number of bytes that are missing or yet to come; the first that does not come is where the bytes end.
  induction count generalizing source place bytes with
  | zero => cases short
  | succ count ih =>
    cases bytes with
    | nil =>
      obtain ⟨after, missed, -⟩ := @read_exactly_short source limits place 1 [] serves Nat.one_pos
      refine ⟨after, ?_⟩
      have first : byte.read source = (.error (.unexpectedEof place), after) := by
        change (exactly 1 >>= fun data => pure (BitVec.ofNat 8 (ofBigEndian data))).read source = _
        rw [read_bind, missed]
      rw [replicate_succ, read_bind, first]
      rfl
    | cons byte rest =>
      obtain ⟨between, first, serves⟩ := reads_byte byte source place rest serves
      obtain ⟨after, others⟩ := ih serves (Nat.lt_of_succ_lt_succ short)
      refine ⟨after, ?_⟩
      rw [replicate_succ, read_bind, first]
      have ended : place + [byte].length + rest.length = place + (byte :: rest).length := by
        rw [Nat.add_assoc, Nat.add_comm [byte].length]
        rfl
      simp only [read_bind, others, ended]

end Decoder

namespace Codec

/-- The codec of bytes that writes and reads them one by one. -/
def bytewise : Codec (.seq .vector .byte) := .seq .vector (.int .unsigned .one)

theorem toBytes_bytewise (v : List Byte) : bytewise.toBytes v = .ok (Varint.encode v.length ++ v) := by
  refine toBytes_seq_iff.mpr ⟨v.map fun byte => [byte], ?_, ?_⟩
  · refine List.forall₂_map_right_iff.mpr (List.forall₂_same.mpr fun byte _ => ?_)
    rw [toBytes_int, ← bigEndian_byte byte]
    rfl
  · exact congrArg (Varint.encode v.length ++ ·) (List.flatMap_singleton' v).symm

theorem estimate_bytewise (v : List Byte) : bytewise.estimate v = bytes.estimate v := by
  have ones : Output.concat (fun _ : Byte => .emit 1) v = ⟨List.replicate v.length 1, none⟩ := by
    induction v with
    | nil => rfl
    | cons byte rest ih =>
      rw [Output.concat_cons, ih]
      rfl
  have walk : bytewise.observe v = ⟨Varint.encodedLength v.length :: List.replicate v.length 1, none⟩ := by
    change (Output.emit _).andThen (Output.concat (fun _ : Byte => .emit 1) v) = _
    rw [ones]
    rfl
  have walk' : bytes.observe v = ⟨[payloadSize v.length], none⟩ := rfl
  simp only [estimate, walk, walk', SizeEstimate.ofUpdates_eq]
  simp [payloadSize]

/-- Bytes are written alike in bulk and one by one, and are estimated to take as much. From a source that delivers a
string of bytes both codecs read the same or fail with the same error, and where they read bytes they leave the
source at the same place with the same bytes before it. -/
theorem bytes_in_bulk :
    (∀ v : List Byte, ∃ written, bytes.toBytes v = .ok written ∧ bytewise.toBytes v = .ok written ∧
      ∃ estimate, bytes.estimate v = .ok estimate ∧ bytewise.estimate v = .ok estimate) ∧
    ∀ (source : Source) (limits : DecodeLimits) (place : Nat) (input : List Byte),
      source.Serves limits place input →
        (bytes.read source).1 = (bytewise.read source).1 ∧
        ∀ v, (bytes.read source).1 = .ok v → (bytes.read source).2.offset = (bytewise.read source).2.offset ∧
          (bytes.read source).2.reader.held = (bytewise.read source).2.reader.held := by
  refine ⟨fun v => ⟨_, toBytes_payload v, toBytes_bytewise v, _, rfl, estimate_bytewise v⟩, ?_⟩
  intro source limits place input serves
  have bulk : bytes.read source = (Decoder.length >>= fun count => Decoder.block count).read source := rfl
  have each : bytewise.read source =
      (Decoder.length >>= fun count => Decoder.replicate count Decoder.byte).read source := by
    change (Decoder.length >>= fun count => Decoder.replicate count Decoder.byte >>= pure).read source = _
    simp only [bind_pure]
  rw [bulk, each, Decoder.read_bind, Decoder.read_bind]
  rcases counted : Decoder.length.read source with ⟨error | count, between⟩
  · exact ⟨rfl, nofun⟩
  · obtain ⟨taken, rest, -, serves, -⟩ := Decoder.takes_length _ _ _ _ _ serves counted
    by_cases enough : count ≤ rest.length
    · obtain ⟨after, read, serves'⟩ := Decoder.read_block serves enough
      obtain ⟨after', read', serves''⟩ := Decoder.read_replicate_byte count serves enough
      simp only [read, read']
      refine ⟨rfl, fun v _ => ⟨serves'.place.trans serves''.place.symm, serves'.holds.trans serves''.holds.symm⟩⟩
    · have short := Nat.lt_of_not_le enough
      obtain ⟨after, read, -⟩ := Decoder.read_block_short serves short
      obtain ⟨after', read'⟩ := Decoder.read_replicate_byte_short count serves short
      simp only [read, read']
      exact ⟨rfl, nofun⟩

/-- Three bytes are announced and two come, in two chunks with an interruption between them; and two bytes with one
more behind them. -/
theorem bytes_in_bulk_cut :
    let cut : Source := .ofReader ⟨[.chunk [3, 7], .interrupted, .chunk [8]], .endOfInput, []⟩ .standard
    let whole : Source := .ofBytes [2, 7, 8, 9] .standard
    cut.Serves .standard 0 [3, 7, 8] ∧ (bytes.read cut).1 = .error (.unexpectedEof 3) ∧
      (bytewise.read cut).1 = .error (.unexpectedEof 3) ∧ (bytes.read whole).1 = .ok [7, 8] ∧
      (bytewise.read whole).1 = .ok [7, 8] ∧ (bytewise.read whole).2.offset = 3 ∧
      (bytewise.read whole).2.reader.held = [9] := by
  intro cut whole
  obtain ⟨-, reads⟩ := bytes_in_bulk
  have serves : cut.Serves .standard 0 [3, 7, 8] := ⟨⟨by simp [cut, Source.ofReader], rfl, rfl⟩, rfl, rfl, rfl⟩
  obtain ⟨failed, -⟩ := reads cut _ _ _ serves
  obtain ⟨same, left⟩ := reads whole _ _ _ (Source.serves_ofBytes [2, 7, 8, 9] .standard)
  obtain ⟨offset, held⟩ := left [7, 8] rfl
  exact ⟨serves, rfl, failed.symm, rfl, same.symm, offset.symm, held.symm⟩

end Codec
end TypedWire
