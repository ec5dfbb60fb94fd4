import TypedWire.Proofs.Scanning
import TypedWire.Proofs.StructuralEquality
import TypedWire.Proofs.WillingSink

/-! A standard codec reads the encoding of a value, wherever it stands, as that value with its decimals
settled. So values written back to back are read back in order. -/

namespace TypedWire

namespace Codec

/-- A standard codec reads the encoding of a value as what becomes of the value. -/
theorem Standard.returns {t : Ty} {codec : Codec t} (standard : codec.Standard) (limits : DecodeLimits) {v : t.Value}
    (valid : t.Valid v) (fit : t.ScalesFit v) {bytes : List Byte} (encodes : codec.toBytes v = .ok bytes)
    (within : codec.Within limits v) : Decoder.Reads limits codec.decode bytes (t.settle v) := by
  have allowed : (codec.frame v).Allowed limits := fun n member => within n ((mem_lengths_iff codec v n).mpr member)
  have spells : (codec.frame v).Spells bytes := by
    rw [← bytes_frame encodes]
    exact Frame.spells_bytes fun n member => Nat.lt_of_le_of_lt (allowed n member) limits.maxLength.toNat_lt
  exact (standard.scansFrames limits valid fit ⟨bytes, encodes⟩).reads allowed spells

/-- Values that are alike have one stand-in. -/
theorem structural_of_alike {t : Ty} {codec : Codec t} (standard : codec.Standard) {a b : t.Value}
    (alike : t.Alike a b) (validA : t.Valid a) (validB : t.Valid b) (fitA : t.ScalesFit a) (fitB : t.ScalesFit b)
    {stand : StructuralValue} (stands : codec.structural a = .ok stand) : codec.structural b = .ok stand := by
  obtain ⟨other, second⟩ := structural_ok_of_alike standard alike stands
  rw [second, (standard.faithful validA validB fitA fitB stands second).mpr alike]

/-- In whatever order the hashed containers in a value yield what they hold, it has one stand-in. -/
theorem structural_of_reorders {t : Ty} {codec : Codec t} (standard : codec.Standard) {v seen : t.Value}
    (reorders : t.Reorders v seen) (valid : t.Valid v) (fit : t.ScalesFit v) {stand : StructuralValue}
    (stands : codec.structural v = .ok stand) : codec.structural seen = .ok stand :=
  structural_of_alike standard (t.alike_of_reorders reorders) valid
    (t.valid_of_reorders standard.formed reorders valid) fit (t.scalesFit_of_reorders reorders fit) stands

/-- What becomes of a value has the stand-in of the value. -/
theorem structural_settle {t : Ty} {codec : Codec t} (standard : codec.Standard) {v : t.Value} (valid : t.Valid v)
    (fit : t.ScalesFit v) {stand : StructuralValue} (stands : codec.structural v = .ok stand) :
    codec.structural (t.settle v) = .ok stand :=
  structural_of_alike standard (t.alike_settle v) valid (t.valid_settle standard.formed valid) fit
    (t.scalesFit_settle fit) stands

/-- A value matches what becomes of it, in whatever order the hashed containers inside that yield what they
hold. -/
theorem matching_of_reorders {t : Ty} {codec : Codec t} (standard : codec.Standard) {v seen : t.Value}
    (valid : t.Valid v) (fit : t.ScalesFit v) (encodes : ∃ bytes, codec.toBytes v = .ok bytes)
    (reorders : t.Reorders (t.settle v) seen) : codec.matching v seen = .ok true := by
  obtain ⟨stand, first⟩ := (toBytes_ok_iff codec v).mp encodes
  have validSettled := t.valid_settle standard.formed valid
  have fitSettled := t.scalesFit_settle fit
  have second := structural_of_reorders standard reorders validSettled fitSettled
    (structural_settle standard valid fit first)
  have validSeen := t.valid_of_reorders standard.formed reorders validSettled
  have fitSeen := t.scalesFit_of_reorders reorders fitSettled
  rw [matching_iff standard valid validSeen fit fitSeen first second]
  exact (standard.faithful valid validSeen fit fitSeen first second).mp rfl

end Codec

/-- A value, and the codec with which it is written and read. -/
structure Item where
  type : Ty
  codec : Codec type
  value : type.Value

namespace Item

/-- The item can be written, and read under the limits. -/
structure Writable (limits : DecodeLimits) (item : Item) : Prop where
  standard : item.codec.Standard
  valid : item.type.Valid item.value
  fit : item.type.ScalesFit item.value
  encodes : ∃ bytes, item.codec.toBytes item.value = .ok bytes
  within : item.codec.Within limits item.value

/-- Writes items one after the other, up to the first that fails, and notes where the sink is after each. -/
def writeAll : List Item → Sink → Except EncodeError (List Nat) × Sink
  | [], sink => (.ok [], sink)
  | item :: rest, sink =>
    match item.codec.write item.value sink with
    | (.ok (), after) =>
      match writeAll rest after with
      | (.ok offsets, final) => (.ok (after.offset :: offsets), final)
      | (.error error, final) => (.error error, final)
    | (.error error, after) => (.error error, after)

/-- The source yields for each item a value that matches the one written, and goes on doing so if its hashed
containers yield what they hold in another order, and is then at the offset noted for the item. -/
inductive ReadsBack : List Item → List Nat → Source → Source → Prop
  | done (source : Source) : ReadsBack [] [] source source
  | next {item : Item} {items : List Item} {offsets : List Nat} {source after final : Source}
      {value : item.type.Value} (reads : item.codec.read source = (.ok value, after))
      (matching : item.codec.matching item.value value = .ok true)
      (reordered : ∀ seen, item.type.Reorders value seen → item.codec.matching item.value seen = .ok true)
      (others : ReadsBack items offsets after final) :
      ReadsBack (item :: items) (after.offset :: offsets) source final

theorem readsBack_writeAll {limits : DecodeLimits} {items : List Item}
    (writable : ∀ item ∈ items, item.Writable limits) {sink : Sink} (willing : sink.writer.Willing) :
    ∃ offsets final written, writeAll items sink = (.ok offsets, final) ∧
      final.writer.accepted.toList = sink.writer.accepted.toList ++ written ∧
      ∀ (source : Source) (suffix : List Byte), source.Serves limits sink.offset (written ++ suffix) →
        ∃ after, ReadsBack items offsets source after ∧ after.Serves limits final.offset suffix := by
  induction items generalizing sink with
  | nil =>
    refine ⟨[], sink, [], rfl, by simp, fun source suffix serves => ?_⟩
    exact ⟨source, .done source, serves⟩
  | cons item rest ih =>
    obtain ⟨standard, valid, fit, ⟨bytes, encodes⟩, within⟩ := writable item (by simp)
    obtain ⟨between, wrote, willing', accepted, moved⟩ := Codec.write_willing encodes willing
    obtain ⟨offsets, final, written, others, taken, back⟩ :=
      ih (fun other member => writable other (List.mem_cons_of_mem _ member)) willing'
    refine ⟨between.offset :: offsets, final, bytes ++ written, ?_, ?_, ?_⟩
    · rw [writeAll, wrote]
      simp only [others]
    · rw [taken, accepted, List.append_assoc]
    · intro source suffix serves
      rw [List.append_assoc] at serves
      obtain ⟨after, read, serves⟩ := standard.returns limits valid fit encodes within _ _ _ serves
      rw [← moved] at serves
      obtain ⟨last, readsBack, serves'⟩ := back after suffix serves
      have level : after.offset = between.offset := serves.place
      have matching : ∀ seen, item.type.Reorders (item.type.settle item.value) seen →
          item.codec.matching item.value seen = .ok true := by
        intro seen
        exact Codec.matching_of_reorders standard valid fit ⟨bytes, encodes⟩
      refine ⟨last, ?_, serves'⟩
      rw [← level]
      exact .next read (matching _ (item.type.reorders_refl _)) matching readsBack

/-- Values written back to back through one sink are read back in order through one source over what was
written and anything behind it. Every value matches the one written, the source is after each of them where the
sink was, and what stands behind is left; this holds however the streams cut what they take and deliver. -/
theorem stream_round_trip {limits : DecodeLimits} {items : List Item}
    (writable : ∀ item ∈ items, item.Writable limits) {writer : Writer} (willing : writer.Willing)
    (suffix : List Byte) :
    ∃ offsets final written, writeAll items (Sink.ofWriter writer) = (.ok offsets, final) ∧
      final.writer.accepted.toList = writer.accepted.toList ++ written ∧
      ∀ reader : Reader, reader.Steady → reader.held = written ++ suffix →
        ∃ after, ReadsBack items offsets (Source.ofReader reader limits) after ∧ after.reader.held = suffix ∧
          after.offset = final.offset := by
  obtain ⟨offsets, final, written, wrote, accepted, back⟩ :=
    @readsBack_writeAll limits items writable (Sink.ofWriter writer) willing
  refine ⟨offsets, final, written, wrote, accepted, fun reader steady holds => ?_⟩
  obtain ⟨after, readsBack, serves⟩ := back (Source.ofReader reader limits) suffix ⟨steady, holds, rfl, rfl⟩
  exact ⟨after, readsBack, serves.holds, serves.place⟩

/-- A hashed set of two characters and an optional integer, with one more byte behind them. -/
theorem stream_round_trip_two :
    ∃ offsets final written,
      writeAll [⟨_, .seq .hashSet Codec.char, ['b', 'a']⟩, ⟨_, .option Codec.integer, some (-1)⟩]
        (Sink.ofWriter .unlimited) = (.ok offsets, final) ∧
      final.writer.accepted.toList = Writer.unlimited.accepted.toList ++ written ∧
      ∀ reader : Reader, reader.Steady → reader.held = written ++ [255] →
        ∃ after, ReadsBack
          [⟨_, .seq .hashSet Codec.char, ['b', 'a']⟩, ⟨_, .option Codec.integer, some (-1)⟩] offsets
          (Source.ofReader reader .standard) after ∧ after.reader.held = [255] ∧ after.offset = final.offset := by
  refine stream_round_trip ?_ Writer.willing_unlimited [255]
  rintro item (_ | ⟨_, _ | ⟨_, ⟨⟩⟩⟩)
  · refine ⟨.seq .hashSet (fun _ => trivial) .char, ⟨?_, fun _ _ => trivial⟩, fun _ _ => trivial, ⟨_, rfl⟩, ?_⟩
    · simp [SeqShape.Holds, Ty.equal]
    · change ∀ length ∈ [2], length ≤ DecodeLimits.standard.maxLength.toNat
      decide
  · refine ⟨.option .integer, fun _ _ => trivial, fun _ _ => trivial, ⟨_, rfl⟩, ?_⟩
    change ∀ length ∈ [1], length ≤ DecodeLimits.standard.maxLength.toNat
    decide

end Item
end TypedWire
