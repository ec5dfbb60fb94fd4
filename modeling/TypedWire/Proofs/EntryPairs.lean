import TypedWire.Codec.Encode
import TypedWire.Codec.Size
import TypedWire.Proofs.DecoderLaws
import TypedWire.Proofs.Finding
import TypedWire.Proofs.Reservations

namespace TypedWire

/-- The label of a component of an entry, and the one of that component in a pair. -/
inductive Counterpart : String → String → Prop
  | key : Counterpart "key" "first"
  | value : Counterpart "value" "second"

/-- The same thing seen from outside an entry and from outside a pair: it bears no label, or the outermost ones are
those of the same component. -/
inductive Renamed {α : Type} (labels : α → List String) (labeled : String → α → α) : α → α → Prop
  | plain {thing : α} (unlabeled : labels thing = []) : Renamed labels labeled thing thing
  | component {label label' : String} (counterpart : Counterpart label label') (inner : α) :
      Renamed labels labeled (labeled label inner) (labeled label' inner)

abbrev DecodeError.Renamed : DecodeError → DecodeError → Prop := TypedWire.Renamed labels labeled

abbrev EncodeError.Renamed : EncodeError → EncodeError → Prop := TypedWire.Renamed labels labeled

abbrev Write.Renamed (write write' : Write) : Prop :=
  write.data = write'.data ∧ TypedWire.Renamed id List.cons write.path write'.path

theorem DecodeError.Renamed.labels_eq_nil {error error' : DecodeError} (renamed : Renamed error error')
    (same : error = error') : error.labels = [] := by
  cases renamed with
  | plain unlabeled => exact unlabeled
  | component counterpart inner =>
    -- The labels of counterparts differ.
    cases counterpart <;> simp [labeled] at same

/-- Two runs end in the same state, both with a value or both with an error, and these are related as given. -/
inductive Lockstep {σ ε α β : Type} (errors : ε → ε → Prop) (values : α → β → Prop) :
    Except ε α × σ → Except ε β × σ → Prop
  | ok {a : α} {b : β} (related : values a b) (after : σ) : Lockstep errors values (.ok a, after) (.ok b, after)
  | error {e e' : ε} (related : errors e e') (after : σ) :
      Lockstep errors values (.error e, after) (.error e', after)

theorem Lockstep.imp {σ ε α β : Type} {errors : ε → ε → Prop} {V W : α → β → Prop} {run : Except ε α × σ}
    {run' : Except ε β × σ} (implies : ∀ a b, V a b → W a b) (lockstep : Lockstep errors V run run') :
    Lockstep errors W run run' := by
  cases lockstep with
  | ok related after => exact .ok (implies _ _ related) after
  | error related after => exact .error related after

/-! ### Reading -/

namespace Decoder

variable {α β α' β' : Type} {V : α → α' → Prop}

/-- From every source the two decoders read in step. -/
def Parallel (V : α → α' → Prop) (one : Decoder α) (other : Decoder α') : Prop :=
  ∀ source, Lockstep DecodeError.Renamed V (one.read source) (other.read source)

theorem parallel_pure {a : α} {a' : α'} (related : V a a') : Parallel V (pure a) (pure a') :=
  fun source => .ok related source

theorem parallel_throw {error : DecodeError} (unlabeled : error.labels = []) :
    Parallel V (throw error) (throw error) :=
  fun source => .error (.plain unlabeled) source

theorem Parallel.bind {first first' : Decoder α} {second : α → Decoder β} {second' : α → Decoder β'}
    {V : β → β' → Prop} (one : Parallel Eq first first') (two : ∀ a, Parallel V (second a) (second' a)) :
    Parallel V (first >>= second) (first' >>= second') := by
  intro source
  have alike := one source
  rw [read_bind, read_bind]
  generalize first.read source = outcome at alike
  generalize first'.read source = outcome' at alike
  cases alike with
  | ok same after =>
    cases same
    exact two _ after
  | error related after => exact .error related after

theorem parallel_ite {condition : Prop} [Decidable condition] {yes no : Decoder α} {yes' no' : Decoder α'}
    (one : Parallel V yes yes') (other : Parallel V no no') :
    Parallel V (if condition then yes else no) (if condition then yes' else no') := by
  by_cases holds : condition
  · rwa [if_pos holds, if_pos holds]
  · rwa [if_neg holds, if_neg holds]

theorem parallel_exactly (count : Nat) : Parallel Eq (exactly count) (exactly count) := by
  intro source
  simp only [read, exactly]
  obtain ⟨⟨bytes, refusal⟩, reader⟩ := source.reader.pull count
  rcases refusal with _ | _ | failure
  · exact .ok rfl _
  · exact .error (.plain rfl) _
  · refine .error (.plain ?_) _
    split <;> rfl

theorem parallel_offset : Parallel Eq offset offset := fun source => .ok rfl source

theorem parallel_limits : Parallel Eq limits limits := fun source => .ok rfl source

theorem parallel_byte : Parallel Eq byte byte := (parallel_exactly _).bind fun _ => parallel_pure rfl

theorem parallel_varintFrom (start more : Nat) (seen : List Byte) :
    Parallel Eq (varintFrom start more seen) (varintFrom start more seen) := by
  induction more generalizing seen with
  | zero => exact parallel_throw rfl
  | succ more ih =>
    refine parallel_byte.bind fun byte => parallel_ite ?_ (ih _)
    split
    · exact parallel_pure rfl
    · exact parallel_throw rfl

theorem parallel_varint : Parallel Eq varint varint :=
  parallel_offset.bind fun start => parallel_varintFrom start _ _

theorem parallel_length : Parallel Eq length length := by
  refine parallel_offset.bind fun start => parallel_varint.bind fun value => parallel_limits.bind fun limits => ?_
  exact parallel_ite (parallel_pure rfl) (parallel_throw rfl)

theorem labels_of_length {source after : Source} {error : DecodeError}
    (read : length.read source = (.error error, after)) : error.labels = [] := by
  have alike := parallel_length source
  rw [read] at alike
  cases alike with
  | error related after => exact related.labels_eq_nil rfl

theorem parallel_labeled {label label' : String} (counterpart : Counterpart label label') (decoder : Decoder α) :
    Parallel Eq (decoder.labeled label) (decoder.labeled label') := by
  intro source
  rw [read_labeled, read_labeled]
  rcases decoder.read source with ⟨error | value, after⟩
  · exact .error (.component counterpart error) after
  · exact .ok rfl after

theorem Parallel.replicate {one other : Decoder α} (alike : Parallel Eq one other) (count : Nat) :
    Parallel Eq (replicate count one) (replicate count other) := by
  induction count with
  | zero => exact parallel_pure rfl
  | succ count ih =>
    rw [replicate_succ, replicate_succ]
    exact alike.bind fun value => ih.bind fun values => parallel_pure rfl

end Decoder

/-- A map is read in step with a list of pairs, and is what comes of these when they are taken in one by one. -/
theorem Codec.parallel_decode {k v : Ty} (shape : MapShape) (keyCodec : Codec k) (valueCodec : Codec v) :
    Decoder.Parallel (fun map (pairs : List (k.Value × v.Value)) => map = shape.insertAll k [] pairs)
      (Codec.map shape keyCodec valueCodec).decode (Codec.seq .vector (.pair keyCodec valueCodec)).decode := by
  have entry : Decoder.Parallel Eq (.entry keyCodec.decode valueCodec.decode) (Codec.pair keyCodec valueCodec).decode :=
    (Decoder.parallel_labeled .key _).bind fun key => (Decoder.parallel_labeled .value _).bind fun value =>
      Decoder.parallel_pure rfl
  change Decoder.Parallel _ (Decoder.entries shape k _) _
  rw [Decoder.entries_eq]
  exact Decoder.parallel_length.bind fun count => (entry.replicate count).bind fun pairs => Decoder.parallel_pure rfl

/-! ### Writing -/

namespace Emission

/-- Two emissions make the same writes and end alike. -/
structure Parallel (one other : Emission) : Prop where
  writes : List.Forall₂ Write.Renamed one.items other.items
  failure : Option.Rel EncodeError.Renamed one.failure other.failure

namespace Parallel

variable {one other one' other' : Emission}

theorem done : Parallel .done .done := ⟨.nil, .none⟩

theorem raw (data : List Byte) : Parallel (raw data) (raw data) := ⟨.cons ⟨rfl, .plain rfl⟩ .nil, .none⟩

theorem labeled {label label' : String} (counterpart : Counterpart label label') (emission : Emission) :
    Parallel (emission.labeled label) (emission.labeled label') := by
  constructor
  · refine List.forall₂_map_left_iff.mpr (List.forall₂_map_right_iff.mpr (List.forall₂_same.mpr ?_))
    exact fun write _ => ⟨rfl, .component counterpart write.path⟩
  · obtain ⟨items, _ | error⟩ := emission
    · exact .none
    · exact .some (.component counterpart error)

theorem andThen (first : Parallel one other) (second : Parallel one' other') :
    Parallel (one.andThen one') (other.andThen other') := by
  obtain ⟨items, ended⟩ := one
  obtain ⟨items', ended'⟩ := other
  obtain ⟨writes, failure⟩ := first
  cases failure with
  | none => exact ⟨List.rel_append writes second.writes, second.failure⟩
  | some related => exact ⟨writes, .some related⟩

theorem concat {α : Type} {walk walk' : α → Emission} (alike : ∀ element, Parallel (walk element) (walk' element))
    (elements : List α) : Parallel (.concat walk elements) (.concat walk' elements) := by
  induction elements with
  | nil => exact done
  | cons element rest ih => exact (alike element).andThen ih

end Parallel
end Emission

namespace Sink

theorem renamed_wrap {path path' : List String} (renamed : Renamed id List.cons path path') {error : EncodeError}
    (unlabeled : error.labels = []) : EncodeError.Renamed (wrap path error) (wrap path' error) := by
  cases renamed with
  | plain bare =>
    cases bare
    exact .plain unlabeled
  | component counterpart inner => exact .component counterpart (wrap inner error)

theorem labels_of_write {data : List Byte} {sink after : Sink} {error : EncodeError}
    (written : sink.write data = (.error error, after)) : error.labels = [] := by
  unfold write at written
  split at written
  · cases written
  · cases written
    rfl

theorem lockstep_playAll {writes writes' : List Write} (renamed : List.Forall₂ Write.Renamed writes writes')
    (sink : Sink) : Lockstep EncodeError.Renamed Eq (playAll writes sink) (playAll writes' sink) := by
  induction renamed generalizing sink with
  | nil => exact .ok rfl sink
  | @cons write write' rest rest' alike _ ih =>
    rw [playAll, playAll, ← alike.1]
    rcases written : sink.write write.data with ⟨error | _, after⟩
    · exact .error (renamed_wrap alike.2 (labels_of_write written)) after
    · exact ih after

theorem lockstep_play {one other : Emission} (alike : one.Parallel other) (sink : Sink) :
    Lockstep EncodeError.Renamed Eq (sink.play one) (sink.play other) := by
  have played := lockstep_playAll alike.writes sink
  unfold play
  generalize playAll one.items sink = outcome at played
  generalize playAll other.items sink = outcome' at played
  cases played with
  | error related after => exact .error related after
  | ok related after =>
    have ended := alike.failure
    generalize one.failure = failure at ended
    generalize other.failure = failure' at ended
    cases ended with
    | none => exact .ok rfl after
    | some related => exact .error related after

end Sink

namespace Codec

variable {k v : Ty}

theorem parallel_encode (shape : MapShape) (keyCodec : Codec k) (valueCodec : Codec v)
    (entries : List (k.Value × v.Value)) :
    ((Codec.map shape keyCodec valueCodec).encode entries).Parallel
      ((Codec.seq .vector (.pair keyCodec valueCodec)).encode entries) := by
  refine (Emission.Parallel.raw _).andThen (.concat (fun entry => ?_) entries)
  exact (Emission.Parallel.labeled .key _).andThen (.labeled .value _)

/-- An entry and a pair differ in the labels of their errors. -/
theorem stuck_pair_iff (layout : Layout) (keyCodec : Codec k) (valueCodec : Codec v) (source : Source) :
    Run.Stuck ((Codec.pair keyCodec valueCodec).run layout) source ↔
      Run.Stuck (.entry (keyCodec.run layout) (valueCodec.run layout)) source := by
  refine Run.stuck_congr (fun source => ?_) source
  simp only [run, Run.entry, Run.progress_bind, Run.progress_labeled]

/-- A map is a sequence of pairs. Reading one takes the same bytes as reading the other, and both fail in the same way
or the map is what the pairs come to, one after the other: the key that came first with the value that came last. What
goes wrong with the count bears no label in either. So it is for what returns; a map and a list do not return where
there is no room for what each of them asks for in advance, or where the same entry does not. The entries of a map and
a sequence of them are written in step, and send the same updates to an observer. -/
theorem map_as_pairs (shape : MapShape) (keyCodec : Codec k) (valueCodec : Codec v) (ordered : k.Ordered) :
    (∀ source : Source,
      Lockstep DecodeError.Renamed
        (fun (map pairs : List (k.Value × v.Value)) => map = pairs.foldl (shape.insert k) [] ∧ shape.Holds k map ∧
          ∀ key, shape.entryAt? k key map = shape.merged? k key pairs)
        ((Codec.map shape keyCodec valueCodec).read source)
        ((Codec.seq .vector (.pair keyCodec valueCodec)).read source) ∧
      ∀ error after, Decoder.length.read source = (.error error, after) → error.labels = [] ∧
        (Codec.map shape keyCodec valueCodec).read source = (.error error, after) ∧
        (Codec.seq .vector (.pair keyCodec valueCodec)).read source = (.error error, after)) ∧
    (∀ (layout : Layout) (source : Source),
      Run.ComesTo ((Codec.map shape keyCodec valueCodec).read source)
        (¬Run.Granted (layout.entries shape k v) source ∨
          Run.Stuck (.entry (keyCodec.run layout) (valueCodec.run layout)) source)
        (((Codec.map shape keyCodec valueCodec).run layout).outcome source) ∧
      Run.ComesTo ((Codec.seq .vector (.pair keyCodec valueCodec)).read source)
        (¬Run.Granted (layout.elements .vector (.pair k v)) source ∨
          Run.Stuck (.entry (keyCodec.run layout) (valueCodec.run layout)) source)
        (((Codec.seq .vector (.pair keyCodec valueCodec)).run layout).outcome source)) ∧
    ∀ entries : List (k.Value × v.Value),
      (Codec.map shape keyCodec valueCodec).observe entries =
        (Codec.seq .vector (.pair keyCodec valueCodec)).observe entries ∧
      ∀ sink : Sink, Lockstep EncodeError.Renamed Eq ((Codec.map shape keyCodec valueCodec).write entries sink)
        ((Codec.seq .vector (.pair keyCodec valueCodec)).write entries sink) := by
  refine ⟨fun source => ⟨?_, fun error after counted => ⟨Decoder.labels_of_length counted, ?_, ?_⟩⟩,
    fun layout source => ⟨comesTo_map layout shape keyCodec valueCodec source, ?_⟩,
    fun entries => ⟨rfl, fun sink => ?_⟩⟩
  · refine (parallel_decode shape keyCodec valueCodec source).imp ?_
    rintro _ pairs rfl
    have nothing := shape.holds_nil (β := v.Value) k
    refine ⟨rfl, MapShape.holds_insertAll ordered nothing pairs, fun key => ?_⟩
    exact MapShape.entryAt?_insertAll ordered nothing pairs key
  · change (Decoder.entries shape k _).read source = _
    rw [Decoder.entries_eq, Decoder.read_bind, counted]
  · rw [read, decode, Decoder.read_bind, counted]
  · rw [← stuck_pair_iff]
    exact comesTo_seq layout .vector (.pair keyCodec valueCodec) source
  · exact Sink.lockstep_play (parallel_encode shape keyCodec valueCodec entries) sink

/-- Three entries, two of them under one key; an entry with a flag that is none; and an entry written to a stream that
has room for the count and the key. -/
theorem map_as_pairs_flags :
    let map := Codec.map .sorted (.int .unsigned .one) .bool
    let pairs := Codec.seq .vector (.pair (.int .unsigned .one) .bool)
    let three : Source := .ofBytes [3, 2, 1, 1, 0, 2, 0] .standard
    let faulty : Source := .ofBytes [1, 5, 7] .standard
    let sink := Sink.ofWriter ⟨#[], [.room 2], some .full⟩
    map.read three = (.ok [(1, false), (2, false)], ⟨⟨[], .endOfInput, []⟩, 7, .standard⟩) ∧
      pairs.read three = (.ok [(2, true), (1, false), (2, false)], ⟨⟨[], .endOfInput, []⟩, 7, .standard⟩) ∧
      (∀ key, MapShape.sorted.entryAt? .byte key [(1, false), (2, false)] =
        MapShape.sorted.merged? .byte key [(2, true), (1, false), (2, false)]) ∧
      (map.read faulty).1 = .error (.component "value" (.invalidFlag 2 7)) ∧
      (pairs.read faulty).1 = .error (.component "second" (.invalidFlag 2 7)) ∧
      Lockstep EncodeError.Renamed Eq (map.write [(1, true)] sink) (pairs.write [(1, true)] sink) := by
  intro map pairs three faulty sink
  obtain ⟨reads, -, writes⟩ := map_as_pairs .sorted (.int .unsigned .one) .bool (k := .byte) trivial
  have mapRead : map.read three = (.ok [(1, false), (2, false)], ⟨⟨[], .endOfInput, []⟩, 7, .standard⟩) := by
    decide +kernel
  have pairsRead : pairs.read three =
      (.ok [(2, true), (1, false), (2, false)], ⟨⟨[], .endOfInput, []⟩, 7, .standard⟩) := by decide +kernel
  have merged := (reads three).1
  rw [mapRead, pairsRead] at merged
  refine ⟨mapRead, pairsRead, ?_, by decide +kernel, by decide +kernel, (writes [(1, true)]).2 sink⟩
  cases merged with
  | ok related after => exact related.2.2

/-- Behind a count of 2 ^ 63 a sorted map finds the input to end, and a list of pairs, which may ask for so many in
advance, does not return. -/
theorem reserved_pairs_end_run :
    let source : Source := .ofBytes (List.replicate 9 0x80 ++ [1]) ⟨18446744073709551615, 18446744073709551615⟩
    let layout : Layout := ⟨fun _ => 32, fun _ _ => 0⟩
    (((Codec.map .sorted (.int .signed .four) .text).run layout).outcome source).map Prod.fst =
        some (.error (.component "key" (.unexpectedEof 10))) ∧
      ((Codec.seq .vector (.pair (.int .signed .four) .text)).run layout).outcome source = none := by
  decide +kernel

end Codec
end TypedWire
