import TypedWire.Proofs.DecoderLaws
import TypedWire.Proofs.Finding
import TypedWire.Proofs.Reservations

namespace TypedWire

namespace Decoder

variable {α β : Type}

/-- The decoder yields the values one after the other, each from where the one before it left the source. -/
inductive Yields (decoder : Decoder α) : Source → List α → Source → Prop
  | done (source : Source) : Yields decoder source [] source
  | next {source between after : Source} {value : α} {values : List α}
      (read : decoder.read source = (.ok value, between)) (others : Yields decoder between values after) :
      Yields decoder source (value :: values) after

/-- Reading a count and as many values fails, and the values before the failure are these. -/
inductive StopsAfter (decoder : Decoder α) (source : Source) : List α → DecodeError → Source → Prop
  | count {error : DecodeError} {after : Source} (read : length.read source = (.error error, after)) :
      StopsAfter decoder source [] error after
  | value {count : Nat} {first between after : Source} {values : List α} {error : DecodeError}
      (counted : length.read source = (.ok count, first)) (yields : decoder.Yields first values between)
      (early : values.length < count) (read : decoder.read between = (.error error, after)) :
      StopsAfter decoder source values error after

private theorem repeatFrom_cases (decoder : Decoder α) (count : Nat) (done : List α) (source : Source) :
    (∃ values after, repeatFrom decoder count done source = ((done.reverse ++ values, none), after) ∧
        decoder.Yields source values after ∧ values.length = count) ∨
      ∃ values between error after, repeatFrom decoder count done source =
          ((done.reverse ++ values, some error), after) ∧
        decoder.Yields source values between ∧ values.length < count ∧
          decoder.read between = (.error error, after) := by
  -- By the number of reads that are left; `done` has been read before, last first.
  induction count generalizing done source with
  | zero => exact .inl ⟨[], source, by simp [repeatFrom], .done source, rfl⟩
  | succ count ih =>
    rw [repeatFrom]
    cases outcome : decoder.read source with
    | mk result between =>
      cases result with
      | error error =>
        exact .inr ⟨[], source, error, between, by simp, .done source, Nat.succ_pos count, outcome⟩
      | ok value =>
        rcases ih (value :: done) between with
          ⟨values, after, run, yields, counted⟩ | ⟨values, last, error, after, run, yields, early, failed⟩
        · refine .inl ⟨value :: values, after, by simpa using run, .next outcome yields, ?_⟩
          rw [List.length_cons, counted]
        · refine .inr ⟨value :: values, last, error, after, ?_, .next outcome yields, Nat.succ_lt_succ early, failed⟩
          simpa using run

theorem attempts_cases (decoder : Decoder α) (count : Nat) (source : Source) :
    (∃ values after, decoder.attempts count source = ((values, none), after) ∧
        decoder.Yields source values after ∧ values.length = count) ∨
      ∃ values between error after, decoder.attempts count source = ((values, some error), after) ∧
        decoder.Yields source values between ∧ values.length < count ∧ decoder.read between = (.error error, after) :=
  repeatFrom_cases decoder count [] source

/-- What a map takes in does not depend on what it holds: it is all entries, or those before the first failure. -/
theorem entriesInto_cases (shape : MapShape) (k : Ty) (entry : Decoder (k.Value × β)) (source : Source) :
    (∃ entries after, ∀ target, entry.entriesInto shape k target source =
        ((.ok (), shape.insertAll k target entries), after)) ∨
      ∃ entries error after, (∀ target, entry.entriesInto shape k target source =
        ((.error error, shape.insertAll k target entries), after)) ∧ entry.StopsAfter source entries error after := by
  unfold entriesInto
  cases counted : length.read source with
  | mk result first =>
    cases result with
    | error error => exact .inr ⟨[], error, first, fun target => rfl, .count counted⟩
    | ok count =>
      rcases attempts_cases entry count first with
        ⟨entries, after, run, -, -⟩ | ⟨entries, between, error, after, run, yields, early, failed⟩
      · exact .inl ⟨entries, after, fun target => by simp only [run]⟩
      · exact .inr ⟨entries, error, after, fun target => by simp only [run], .value counted yields early failed⟩

end Decoder

namespace Codec

variable {k v : Ty}

/-- Reads a map from each source into `target`, up to the first failure. -/
def readEachInto (shape : MapShape) (key : Codec k) (value : Codec v) (target : List (k.Value × v.Value)) :
    List Source → Except DecodeError Unit × List (k.Value × v.Value)
  | [] => (.ok (), target)
  | source :: sources =>
    match readInto shape key value target source with
    | ((.ok (), taken), _) => readEachInto shape key value taken sources
    | ((.error error, taken), _) => (.error error, taken)

theorem read_map (shape : MapShape) (keyCodec : Codec k) (valueCodec : Codec v) (source : Source) :
    (Codec.map shape keyCodec valueCodec).read source = match readInto shape keyCodec valueCodec [] source with
      | ((.ok (), taken), after) => (.ok taken, after)
      | ((.error error, _), after) => (.error error, after) := by
  simp only [read, decode, readInto, Decoder.read_entries]
  rcases Decoder.entriesInto shape k (.entry keyCodec.decode valueCodec.decode) [] source with
    ⟨⟨_ | _, taken⟩, after⟩ <;> rfl

/-- A map that is read into another one is laid over it. -/
theorem readInto_of_read {shape : MapShape} {keyCodec : Codec k} {valueCodec : Codec v} (ordered : k.Ordered)
    {target : List (k.Value × v.Value)} (holds : shape.Holds k target) {source after : Source}
    {decoded : List (k.Value × v.Value)}
    (read : (Codec.map shape keyCodec valueCodec).read source = (.ok decoded, after)) :
    ∃ final, readInto shape keyCodec valueCodec target source = ((.ok (), final), after) ∧ shape.Holds k final ∧
      ∀ key, shape.entryAt? k key final = overlay (shape.entryAt? k key target) (shape.entryAt? k key decoded) := by
  rw [read_map] at read
  rcases Decoder.entriesInto_cases shape k (.entry keyCodec.decode valueCodec.decode) source with
    ⟨entries, after', into⟩ | ⟨entries, error, after', into, -⟩
  · rw [readInto, into] at read
    cases read
    refine ⟨_, into target, MapShape.holds_insertAll ordered holds entries, fun key => ?_⟩
    rw [MapShape.entryAt?_insertAll ordered holds, MapShape.entryAt?_insertAll ordered (shape.holds_nil k)]
    rfl
  · rw [readInto, into] at read
    cases read

/-- A map that fails to be read leaves in the other one the entries that came before the failure. -/
theorem readInto_of_read_error {shape : MapShape} {keyCodec : Codec k} {valueCodec : Codec v} {source after : Source}
    {error : DecodeError} (read : (Codec.map shape keyCodec valueCodec).read source = (.error error, after))
    (target : List (k.Value × v.Value)) :
    ∃ entries, readInto shape keyCodec valueCodec target source =
        ((.error error, entries.foldl (shape.insert k) target), after) ∧
      (Decoder.entry keyCodec.decode valueCodec.decode).StopsAfter source entries error after := by
  rw [read_map] at read
  rcases Decoder.entriesInto_cases shape k (.entry keyCodec.decode valueCodec.decode) source with
    ⟨entries, after', into⟩ | ⟨entries, error', after', into, stops⟩
  · rw [readInto, into] at read
    cases read
  · rw [readInto, into] at read
    cases read
    exact ⟨entries, into target, stops⟩

/-- Reading a map into another one succeeds where reading it alone does, fails as that fails, and takes the same
bytes. After a success the target holds under each key what was read laid over what it held; after a failure it has
taken in the entries that came whole, in order, and nothing else. So maps read into one target one after the other
are laid over it one after the other. This is so for what returns: neither does where an entry does not, and reading a
map alone does not where there is no room for what it asks for in advance. -/
theorem readInto_overlays (shape : MapShape) (keyCodec : Codec k) (valueCodec : Codec v) (ordered : k.Ordered)
    {target : List (k.Value × v.Value)} (holds : shape.Holds k target) :
    (∀ source : Source, match (Codec.map shape keyCodec valueCodec).read source with
      | (.ok decoded, after) => ∃ final, readInto shape keyCodec valueCodec target source = ((.ok (), final), after) ∧
          shape.Holds k final ∧
            ∀ key, shape.entryAt? k key final = overlay (shape.entryAt? k key target) (shape.entryAt? k key decoded)
      | (.error error, after) => ∃ entries, readInto shape keyCodec valueCodec target source =
          ((.error error, entries.foldl (shape.insert k) target), after) ∧
            (Decoder.entry keyCodec.decode valueCodec.decode).StopsAfter source entries error after) ∧
    (∀ (sources : List Source) (maps : List (List (k.Value × v.Value))),
      List.Forall₂ (fun source map => ∃ after, (Codec.map shape keyCodec valueCodec).read source = (.ok map, after))
        sources maps →
      ∃ final, readEachInto shape keyCodec valueCodec target sources = (.ok (), final) ∧ shape.Holds k final ∧
        ∀ key, shape.entryAt? k key final =
          maps.foldl (fun found map => overlay found (shape.entryAt? k key map)) (shape.entryAt? k key target)) ∧
    ∀ (layout : Layout) (source : Source),
      Run.ComesTo ((Codec.map shape keyCodec valueCodec).read source)
        (¬Run.Granted (layout.entries shape k v) source ∨
          Run.Stuck (.entry (keyCodec.run layout) (valueCodec.run layout)) source)
        (((Codec.map shape keyCodec valueCodec).run layout).outcome source) ∧
      Run.ComesTo (readInto shape keyCodec valueCodec target source)
        (Run.Stuck (.entry (keyCodec.run layout) (valueCodec.run layout)) source)
        (runInto layout shape keyCodec valueCodec target source) := by
  refine ⟨fun source => ?_, fun sources maps reads => ?_, fun layout source => ⟨?_, ?_⟩⟩
  · rcases outcome : (Codec.map shape keyCodec valueCodec).read source with ⟨error | decoded, after⟩
    · exact readInto_of_read_error outcome target
    · exact readInto_of_read ordered holds outcome
  · -- Each map is laid over what the ones before it left, which is a map again.
    induction reads generalizing target with
    | nil => exact ⟨target, rfl, holds, fun key => rfl⟩
    | cons read _ ih =>
      obtain ⟨after, read⟩ := read
      obtain ⟨between, into, holds', overlaid⟩ := readInto_of_read ordered holds read
      obtain ⟨final, others, holds'', overlaid'⟩ := ih holds'
      refine ⟨final, ?_, holds'', fun key => ?_⟩
      · rw [readEachInto, into]
        exact others
      · rw [overlaid', overlaid, List.foldl_cons]
  · exact comesTo_map layout shape keyCodec valueCodec source
  · exact comesTo_runInto layout shape keyCodec valueCodec target source

/-- Flags under the numbers 1 and 2. What is read into them is a map with a new flag under 1 and one under 3, then
another flag under 2; and at last an entry that is cut off behind its key. -/
theorem readInto_overlays_flags :
    let flags : List (Byte × Bool) := [(1, true), (2, false)]
    let read := fun bytes => (Codec.map .sorted (.int .unsigned .one) .bool).read (.ofBytes bytes .standard)
    let into := fun bytes => readInto .sorted (.int .unsigned .one) .bool flags (.ofBytes bytes .standard)
    let found := fun (key : Byte) (map : List (Byte × Bool)) => MapShape.sorted.entryAt? .byte key map
    MapShape.sorted.Holds .byte flags ∧
      (read [2, 1, 0, 3, 1]).1 = .ok [(1, false), (3, true)] ∧ (read [1, 2, 1]).1 = .ok [(2, true)] ∧
      (∃ final, (into [2, 1, 0, 3, 1]).1 = (.ok (), final) ∧
        ∀ key, found key final = overlay (found key flags) (found key [(1, false), (3, true)])) ∧
      (∃ entries : List (Byte × Bool), (into [2, 1, 0, 3]).1 =
        (.error (.component "value" (.unexpectedEof 4)), entries.foldl (MapShape.sorted.insert .byte) flags)) ∧
      ∃ final, readEachInto .sorted (.int .unsigned .one) .bool flags
          [.ofBytes [2, 1, 0, 3, 1] .standard, .ofBytes [1, 2, 1] .standard] = (.ok (), final) ∧
        ∀ key, found key final =
          overlay (overlay (found key flags) (found key [(1, false), (3, true)])) (found key [(2, true)]) := by
  intro flags read into found
  have holds : MapShape.sorted.Holds .byte flags :=
    .cons (List.forall_mem_singleton.mpr rfl) (List.pairwise_singleton _ _)
  have one : (read [2, 1, 0, 3, 1]).1 = .ok [(1, false), (3, true)] := rfl
  have two : (read [1, 2, 1]).1 = .ok [(2, true)] := rfl
  obtain ⟨each, streams, -⟩ := readInto_overlays .sorted (.int .unsigned .one) .bool (k := .byte) trivial holds
  refine ⟨holds, one, two, ?_, ?_, ?_⟩
  · obtain ⟨final, into, -, overlaid⟩ := each (.ofBytes [2, 1, 0, 3, 1] .standard)
    exact ⟨final, congrArg Prod.fst into, overlaid⟩
  · obtain ⟨entries, into, -⟩ := each (.ofBytes [2, 1, 0, 3] .standard)
    exact ⟨entries, congrArg Prod.fst into⟩
  · obtain ⟨final, into, -, overlaid⟩ := streams
      [.ofBytes [2, 1, 0, 3, 1] .standard, .ofBytes [1, 2, 1] .standard] [[(1, false), (3, true)], [(2, true)]]
      (.cons ⟨_, Prod.ext one rfl⟩ (.cons ⟨_, Prod.ext two rfl⟩ .nil))
    exact ⟨final, into, overlaid⟩

/-- Behind a count of 2 ^ 63 a map that is read into an empty one finds the input to end. Read alone it may ask for so
many entries in advance, and does not return. -/
theorem reserved_map_ends_run :
    let source : Source := .ofBytes (List.replicate 9 0x80 ++ [1]) ⟨18446744073709551615, 18446744073709551615⟩
    let layout : Layout := ⟨fun _ => 32, fun _ capacity => 33 * capacity⟩
    ((Codec.map .hashed (.int .signed .four) .text).run layout).outcome source = none ∧
      (runInto layout .hashed (.int .signed .four) .text [] source).map Prod.fst =
        some (.error (.component "key" (.unexpectedEof 10)), []) := by
  decide +kernel

end Codec
end TypedWire
