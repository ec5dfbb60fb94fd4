import TypedWire.Proofs.BrokenSink
import TypedWire.Proofs.ErrorPaths

namespace TypedWire

namespace Sink

variable {α : Type}

/-! ### Playing in parts -/

variable {sink after : Sink} {error : EncodeError} {first second emission : Emission}

theorem error_of_play_andThen (played : sink.play (first.andThen second) = (.error error, after)) :
    sink.play first = (.error error, after) ∨
      ∃ between, sink.play first = (.ok (), between) ∧ between.play second = (.error error, after) := by
  rw [play_andThen] at played
  rcases outcome : sink.play first with ⟨error' | _, between⟩
  · rw [outcome] at played
    cases played
    exact .inl rfl
  · rw [outcome] at played
    exact .inr ⟨between, rfl, played⟩

theorem error_of_play_labeled {label : String} (played : sink.play (emission.labeled label) = (.error error, after)) :
    ∃ cause, sink.play emission = (.error cause, after) ∧ error = cause.labeled label := by
  rw [play_labeled] at played
  rcases outcome : sink.play emission with ⟨cause | _, between⟩
  · rw [outcome] at played
    cases played
    exact ⟨cause, rfl, rfl⟩
  · rw [outcome] at played
    cases played

theorem play_labeled_eq_ok_iff {label : String} :
    sink.play (emission.labeled label) = (.ok (), after) ↔ sink.play emission = (.ok (), after) := by
  rw [play_labeled]
  rcases sink.play emission with ⟨cause | _, between⟩
  · simp
  · simp

/-- What the elements give off is played, one after the other. -/
inductive Plays (walk : α → Emission) : Sink → List α → Sink → Prop
  | done (sink : Sink) : Plays walk sink [] sink
  | next {sink between after : Sink} {x : α} {rest : List α} (played : sink.play (walk x) = (.ok (), between))
      (others : Plays walk between rest after) : Plays walk sink (x :: rest) after

/-- Where the elements of a list are not all played, there is a first one that is not. -/
theorem error_of_play_concat {walk : α → Emission} {elements : List α}
    (played : sink.play (.concat walk elements) = (.error error, after)) :
    ∃ front x back between, elements = front ++ x :: back ∧ Plays walk sink front between ∧
      between.play (walk x) = (.error error, after) := by
  induction elements generalizing sink with
  | nil => cases played
  | cons x rest ih =>
    rcases error_of_play_andThen played with failed | ⟨between, whole, failed⟩
    · exact ⟨[], x, rest, sink, rfl, .done sink, failed⟩
    · obtain ⟨front, y, back, last, rfl, plays, failed⟩ := ih failed
      exact ⟨x :: front, y, back, last, rfl, .next whole plays, failed⟩

end Sink

/-! ### Kinds of errors -/

inductive EncodeError.Kind where
  | io
  | lengthOverflow
  | mapping
  | component
deriving DecidableEq, Repr

def EncodeError.kind : EncodeError → Kind
  | .io _ _ => .io
  | .lengthOverflow _ => .lengthOverflow
  | .mapping _ => .mapping
  | .component _ _ => .component

theorem EncodeError.bare_of_kind {error : EncodeError} (bare : error.kind ≠ .component) :
    error.labels = [] ∧ error.root = error := by
  cases error with
  | component label cause => exact absurd rfl bare
  | _ => exact ⟨rfl, rfl⟩

/-- The kinds of errors that a codec itself may raise while a value is written. -/
def Codec.writeFaults : {t : Ty} → Codec t → List EncodeError.Kind
  | _, .int _ _ => [.io]
  | _, .float _ => [.io]
  | _, .bool => [.io]
  | _, .unit => []
  | _, .never => []
  | _, .text => [.io]
  | _, .bytes => [.io]
  | _, .compact _ _ => [.io]
  | _, .derived _ _ _ _ => [.mapping]
  | _, .terse _ _ _ => []
  | _, .seq _ _ => [.io]
  | _, .map _ _ _ => [.io]
  | _, .option _ => [.io]
  | _, .pair _ _ => []
  | _, .triple _ _ _ => []

theorem Codec.component_not_mem_writeFaults {t : Ty} (codec : Codec t) : .component ∉ codec.writeFaults := by
  cases codec <;> simp [writeFaults]

/-- Only the stream can refuse a raw write. -/
theorem Sink.io_of_play_raw {sink after : Sink} {data : List Byte} {error : EncodeError}
    (played : sink.play (Emission.raw data) = (.error error, after)) : error.kind ∈ [EncodeError.Kind.io] := by
  simp only [play, Emission.raw, Output.emit, playAll, write] at played
  rcases pushed : sink.writer.push data with ⟨_ | failure, writer⟩
  · rw [pushed] at played
    cases played
  · rw [pushed] at played
    cases played
    exact List.mem_singleton_self _

theorem Sink.io_of_play_payload {sink after : Sink} {data : List Byte} {error : EncodeError}
    (played : sink.play (Emission.payload data) = (.error error, after)) : error.kind ∈ [EncodeError.Kind.io] := by
  rcases error_of_play_andThen played with failed | ⟨between, -, failed⟩
  · exact io_of_play_raw failed
  · exact io_of_play_raw failed

/-- What an entry of a map gives off. -/
def Codec.encodeEntry {k v : Ty} (key : Codec k) (value : Codec v) (entry : k.Value × v.Value) : Emission :=
  (Emission.labeled "key" (key.encode entry.1)).andThen (Emission.labeled "value" (value.encode entry.2))

/-! ### Writing, component by component -/

/-- A codec, the value that it writes and the sink that it writes to. -/
structure Writing where
  {t : Ty}
  codec : Codec t
  value : t.Value
  sink : Sink

namespace Writing

def any (writing : Writing) : AnyCodec := ⟨writing.t, writing.codec⟩

/-- Writing a value comes to a component of it. What stands before the component has been written then, and the sink
is where that ended. -/
inductive Enters : Writing → Slot → Writing → Prop
  | derived {base target : Ty} {name : String} {codec : Codec base} {toBase : target.Value → Except Refusal base.Value}
      {fromBase : base.Value → Except String target.Value} {v : target.Value} {inner : base.Value} {sink : Sink}
      (mapped : toBase v = .ok inner) :
      Enters ⟨.derived name codec toBase fromBase, v, sink⟩ .base ⟨codec, inner, sink⟩
  | terse {name : String} {objection : Option String} {t : Ty} {codec : Codec t} {v : t.Value} {sink : Sink} :
      Enters ⟨.terse name objection codec, v, sink⟩ .base ⟨codec, v, sink⟩
  | element {shape : SeqShape} {t : Ty} {codec : Codec t} {elements front back : List t.Value} {x : t.Value}
      {sink first between : Sink} (counted : sink.play (.lengthPrefix elements.length) = (.ok (), first))
      (split : elements = front ++ x :: back) (plays : first.Plays codec.encode front between) :
      Enters ⟨.seq shape codec, elements, sink⟩ .element ⟨codec, x, between⟩
  | key {shape : MapShape} {k v : Ty} {key : Codec k} {value : Codec v}
      {entries front back : List (k.Value × v.Value)} {entry : k.Value × v.Value} {sink first between : Sink}
      (counted : sink.play (.lengthPrefix entries.length) = (.ok (), first))
      (split : entries = front ++ entry :: back) (plays : first.Plays (key.encodeEntry value) front between) :
      Enters ⟨.map shape key value, entries, sink⟩ .key ⟨key, entry.1, between⟩
  | value {shape : MapShape} {k v : Ty} {key : Codec k} {value : Codec v}
      {entries front back : List (k.Value × v.Value)} {entry : k.Value × v.Value} {sink first between behind : Sink}
      (counted : sink.play (.lengthPrefix entries.length) = (.ok (), first))
      (split : entries = front ++ entry :: back) (plays : first.Plays (key.encodeEntry value) front between)
      (written : key.write entry.1 between = (.ok (), behind)) :
      Enters ⟨.map shape key value, entries, sink⟩ .value ⟨value, entry.2, behind⟩
  | some {t : Ty} {codec : Codec t} {x : t.Value} {sink between : Sink}
      (there : sink.play (.flag true) = (.ok (), between)) :
      Enters ⟨.option codec, .some x, sink⟩ .value ⟨codec, x, between⟩
  | pairFirst {s t : Ty} {a : Codec s} {b : Codec t} {v : s.Value × t.Value} {sink : Sink} :
      Enters ⟨.pair a b, v, sink⟩ .first ⟨a, v.1, sink⟩
  | pairSecond {s t : Ty} {a : Codec s} {b : Codec t} {v : s.Value × t.Value} {sink between : Sink}
      (written : a.write v.1 sink = (.ok (), between)) : Enters ⟨.pair a b, v, sink⟩ .second ⟨b, v.2, between⟩
  | tripleFirst {s t u : Ty} {a : Codec s} {b : Codec t} {c : Codec u} {v : s.Value × t.Value × u.Value}
      {sink : Sink} : Enters ⟨.triple a b c, v, sink⟩ .first ⟨a, v.1, sink⟩
  | tripleSecond {s t u : Ty} {a : Codec s} {b : Codec t} {c : Codec u} {v : s.Value × t.Value × u.Value}
      {sink between : Sink} (written : a.write v.1 sink = (.ok (), between)) :
      Enters ⟨.triple a b c, v, sink⟩ .second ⟨b, v.2.1, between⟩
  | tripleThird {s t u : Ty} {a : Codec s} {b : Codec t} {c : Codec u} {v : s.Value × t.Value × u.Value}
      {sink between behind : Sink} (written : a.write v.1 sink = (.ok (), between))
      (written' : b.write v.2.1 between = (.ok (), behind)) :
      Enters ⟨.triple a b c, v, sink⟩ .third ⟨c, v.2.2, behind⟩

theorem Enters.component {whole part : Writing} {slot : Slot} (enters : Enters whole slot part) :
    whole.any.2.component? slot = Option.some part.any := by
  cases enters <;> rfl

/-- The writing raises the error itself: it fails with it, it is able to, and all components that it comes to are
written. -/
structure Raises (part : Writing) (error : EncodeError) (after : Sink) : Prop where
  fails : part.codec.write part.value part.sink = (.error error, after)
  alone : ∀ slot inner, Enters part slot inner → ∃ behind, inner.codec.write inner.value inner.sink = (.ok (), behind)
  able : error.kind ∈ part.codec.writeFaults

/-- The labels of the error lead to a writing that raised what lies below them. -/
def Routed (whole : Writing) (error : EncodeError) (after : Sink) : Prop :=
  ∃ place part, Tracks Enters any error.labels whole place part ∧ part.Raises error.root after

variable {whole part : Writing} {slot : Slot} {error : EncodeError} {after : Sink}

theorem routed_of_raises (raises : part.Raises error after) : part.Routed error after := by
  have bare : error.kind ≠ .component := by
    intro component
    exact part.codec.component_not_mem_writeFaults (component ▸ raises.able)
  obtain ⟨labels, root⟩ := EncodeError.bare_of_kind bare
  exact ⟨[], part, labels ▸ .here part, root.symm ▸ raises⟩

theorem Routed.through (into : Enters whole slot part) (bare : slot.tag? = none) (routed : part.Routed error after) :
    whole.Routed error after := by
  obtain ⟨place, inner, tracks, raised⟩ := routed
  have further := tracks.inside into into.component
  rw [bare] at further
  exact ⟨slot :: place, inner, further, raised⟩

theorem Routed.of_labeled {label : String} (into : Enters whole slot part) (tagged : slot.tag? = Option.some label)
    (inner : ∀ {cause}, part.codec.write part.value part.sink = (.error cause, after) → part.Routed cause after)
    (failed : part.sink.play ((part.codec.encode part.value).labeled label) = (.error error, after)) :
    whole.Routed error after := by
  obtain ⟨cause, raised, rfl⟩ := Sink.error_of_play_labeled failed
  obtain ⟨place, inner, tracks, raised⟩ := inner raised
  have further := tracks.inside into into.component
  rw [tagged] at further
  exact ⟨slot :: place, inner, further, raised⟩

theorem routed_of_leaf {t : Ty} {codec : Codec t} {v : t.Value} {sink : Sink} (leaf : codec.slots = [])
    (able : error.kind ∈ codec.writeFaults) (written : codec.write v sink = (.error error, after)) :
    Routed ⟨codec, v, sink⟩ error after := by
  refine routed_of_raises ⟨written, fun slot inner enters => ?_, able⟩
  have component := enters.component
  rw [Codec.component?, any, leaf] at component
  cases component

/-- Whoever follows the labels of an error from the codec that was to write comes to the codec that raised it. -/
theorem routed_of_write {t : Ty} (codec : Codec t) {v : t.Value} {sink after : Sink} {error : EncodeError}
    (written : codec.write v sink = (.error error, after)) : Routed ⟨codec, v, sink⟩ error after := by
  induction codec generalizing sink after error with
  | int sign width => exact routed_of_leaf rfl (Sink.io_of_play_raw written) written
  | float p => exact routed_of_leaf rfl (Sink.io_of_play_raw written) written
  | bool => exact routed_of_leaf rfl (Sink.io_of_play_raw written) written
  | unit => cases written
  | never => exact v.elim
  | text => exact routed_of_leaf rfl (Sink.io_of_play_payload written) written
  | bytes => exact routed_of_leaf rfl (Sink.io_of_play_payload written) written
  | compact name objection => exact routed_of_leaf rfl (Sink.io_of_play_raw written) written
  | derived name codec toBase fromBase ih =>
    have played := written
    rw [Codec.write, Codec.encode_derived] at played
    cases mapped : toBase v with
    | ok inner =>
      rw [mapped] at played
      exact (ih played).through (.derived mapped) rfl
    | error refusal =>
      rw [mapped] at played
      cases played
      refine routed_of_raises ⟨written, ?_, List.mem_cons_self⟩
      rintro slot part ⟨mapped'⟩
      cases mapped.symm.trans mapped'
  | terse name objection codec ih => exact (ih written).through .terse rfl
  | seq shape codec ih =>
    rcases Sink.error_of_play_andThen written with failed | ⟨first, counted, failed⟩
    · refine routed_of_raises ⟨written, ?_, ?_⟩
      · rintro slot part (_ | _ | ⟨counted, _, _⟩)
        cases failed.symm.trans counted
      · exact Sink.io_of_play_raw failed
    · obtain ⟨front, x, back, between, split, plays, failed⟩ := Sink.error_of_play_concat failed
      exact (ih failed).through (.element counted split plays) rfl
  | map shape key value ihk ihv =>
    rcases Sink.error_of_play_andThen written with failed | ⟨first, counted, failed⟩
    · refine routed_of_raises ⟨written, ?_, ?_⟩
      · rintro slot part (_ | _ | _ | ⟨counted, _, _⟩ | ⟨counted, _, _, _⟩)
        · cases failed.symm.trans counted
        · cases failed.symm.trans counted
      · exact Sink.io_of_play_raw failed
    · obtain ⟨front, entry, back, between, split, plays, failed⟩ := Sink.error_of_play_concat failed
      rcases Sink.error_of_play_andThen failed with failed | ⟨behind, keyed, failed⟩
      · exact .of_labeled (.key counted split plays) rfl ihk failed
      · have keyed := Sink.play_labeled_eq_ok_iff.mp keyed
        exact .of_labeled (.value counted split plays keyed) rfl ihv failed
  | option codec ih =>
    cases v with
    | none =>
      refine routed_of_raises ⟨written, ?_, ?_⟩
      · rintro slot part ⟨⟩
      · exact Sink.io_of_play_raw written
    | some inner =>
      rcases Sink.error_of_play_andThen written with failed | ⟨between, there, failed⟩
      · refine routed_of_raises ⟨written, ?_, ?_⟩
        · rintro slot part (_ | _ | _ | _ | _ | there)
          cases failed.symm.trans there
        · exact Sink.io_of_play_raw failed
      · exact .of_labeled (.some there) rfl ih failed
  | pair a b iha ihb =>
    rcases Sink.error_of_play_andThen written with failed | ⟨between, writtenA, failed⟩
    · exact .of_labeled .pairFirst rfl iha failed
    · have writtenA := Sink.play_labeled_eq_ok_iff.mp writtenA
      exact .of_labeled (.pairSecond writtenA) rfl ihb failed
  | triple a b c iha ihb ihc =>
    rcases Sink.error_of_play_andThen written with failed | ⟨between, writtenA, failed⟩
    · exact .of_labeled .tripleFirst rfl iha failed
    have writtenA := Sink.play_labeled_eq_ok_iff.mp writtenA
    rcases Sink.error_of_play_andThen failed with failed | ⟨behind, writtenB, failed⟩
    · exact .of_labeled (.tripleSecond writtenA) rfl ihb failed
    · have writtenB := Sink.play_labeled_eq_ok_iff.mp writtenB
      exact .of_labeled (.tripleThird writtenA writtenB) rfl ihc failed

end Writing

/-- Where the bytes of an emission are not counted, they are not kept, for the same reason. -/
theorem Emission.toBytes_of_size {emission : Emission} {error : EncodeError} (refused : emission.size = .error error) :
    emission.toBytes = .error error := by
  unfold size at refused
  unfold toBytes
  cases ended : emission.failure with
  | none =>
    rw [ended] at refused
    cases refused
  | some failure =>
    rw [ended] at refused
    cases refused
    rfl

namespace Codec

theorem read_map_of_readInto_error {k v : Ty} {shape : MapShape} {key : Codec k} {value : Codec v}
    {target taken : List (k.Value × v.Value)} {source after : Source} {error : DecodeError}
    (read : readInto shape key value target source = ((.error error, taken), after)) :
    (Codec.map shape key value).read source = (.error error, after) := by
  rw [read_map]
  rcases Decoder.entriesInto_cases shape k (.entry key.decode value.decode) source with
    ⟨entries, last, into⟩ | ⟨entries, error', last, into, -⟩
  · rw [readInto, into] at read
    cases read
  · rw [readInto, into] at read
    cases read
    rw [readInto, into]

/-- The labels of an error are those of the slots on the way from the codec to the one that raised it, from the
outermost inwards, each once and none around elements and bases. That codec raised the error itself, where the way
leads: it fails there with what lies below the labels, it is one that can, and none of its components failed. So it is
for every way to read, except that bytes that are left over are nobody's fault but bear no label either, and for every
way to write. -/
theorem errors_routed :
    (∀ {t : Ty} (codec : Codec t) (source after : Source) (error : DecodeError),
      codec.read source = (.error error, after) → Reading.Routed ⟨codec, source⟩ error after) ∧
    (∀ {k v : Ty} (shape : MapShape) (key : Codec k) (value : Codec v) (target taken : List (k.Value × v.Value))
      (source after : Source) (error : DecodeError),
      readInto shape key value target source = ((.error error, taken), after) →
        Reading.Routed ⟨.map shape key value, source⟩ error after) ∧
    (∀ {t : Ty} (codec : Codec t) (bytes : List Byte) (error : DecodeError), codec.ofBytes bytes = .error error →
      (∃ after, Reading.Routed ⟨codec, .ofBytes bytes .standard⟩ error after) ∨
        error.kind = .trailingBytes ∧ error.labels = []) ∧
    (∀ {t : Ty} (codec : Codec t) (v : t.Value) (sink after : Sink) (error : EncodeError),
      codec.write v sink = (.error error, after) → Writing.Routed ⟨codec, v, sink⟩ error after) ∧
    (∀ {t : Ty} (codec : Codec t) (v : t.Value) (error : EncodeError),
      codec.toBytes v = .error error ∨ codec.encodedSize v = .error error →
        ∃ after, Writing.Routed ⟨codec, v, .ofWriter .unlimited⟩ error after) := by
  refine ⟨?_, ?_, ?_, ?_, ?_⟩
  · intro t codec source after error read
    exact Reading.routed_of_read codec read
  · intro k v shape key value target taken source after error read
    exact Reading.routed_of_read _ (read_map_of_readInto_error read)
  · intro t codec bytes error refused
    unfold ofBytes at refused
    rcases read : codec.read (.ofBytes bytes .standard) with ⟨error' | value, after⟩
    · rw [read] at refused
      cases refused
      exact .inl ⟨after, Reading.routed_of_read codec read⟩
    · rw [read] at refused
      cases left : after.reader.held with
      | nil =>
        simp only [left] at refused
        cases refused
      | cons byte rest =>
        simp only [left] at refused
        cases refused
        exact .inr ⟨rfl, rfl⟩
  · intro t codec v sink after error written
    exact Writing.routed_of_write codec written
  · intro t codec v error failed
    -- Counting bytes fails where keeping them does, and keeping them is writing to a stream that takes everything.
    have refused : codec.toBytes v = .error error := by
      rcases failed with refused | refused
      · exact refused
      · exact Emission.toBytes_of_size refused
    obtain ⟨after, written, -⟩ := codec.write_unlimited v
    rw [refused] at written
    exact ⟨after, Writing.routed_of_write codec written⟩

/-- A flag that is none, in a list of pairs and in a map; a text that is no text; a character that no byte has room for;
and a text for which the stream has no room. -/
theorem errors_routed_labels :
    let pairs : Codec _ := .seq .vector (.pair (.int .unsigned .one) (.option .bool))
    let source : Source := .ofBytes [2, 5, 0, 6, 1, 7] .standard
    let entry : Source := .ofBytes [1, 1, 7] .standard
    let texts : Codec _ := .map .sorted .bool .text
    let full : Sink := .ofWriter ⟨#[], [.room 3], some .full⟩
    Reading.Routed ⟨pairs, source⟩ (.component "second" (.component "value" (.invalidFlag 5 7)))
        (pairs.read source).2 ∧
      Reading.Routed ⟨.map .sorted .bool .bool, entry⟩ (.component "value" (.invalidFlag 2 7))
        (readInto .sorted .bool .bool [(false, true)] entry).2 ∧
      (∃ after, Reading.Routed ⟨.triple .bool .text .bool, .ofBytes [1, 1, 0xFF] .standard⟩
        (.component "second" (.invalidUtf8 2 ⟨0, some 1⟩)) after) ∧
      Writing.Routed ⟨texts, [(true, "ab")], full⟩ (.component "value" (.io 3 .nothingWritten))
        (texts.write [(true, "ab")] full).2 ∧
      ∃ after, Writing.Routed ⟨.option char, some 'λ', .ofWriter .unlimited⟩
        (.component "value" (.mapping (.told "char U+03BB needs more than one byte"))) after := by
  intro pairs source entry texts full
  obtain ⟨reads, into, accepts, writes, encodes⟩ := errors_routed
  refine ⟨reads pairs source _ _ rfl, into .sorted .bool .bool [(false, true)] [(false, true)] entry _ _ rfl, ?_,
    writes texts _ full _ _ (by decide +kernel), ?_⟩
  · rcases accepts (.triple .bool .text .bool) [1, 1, 0xFF] _ rfl with routed | ⟨left, -⟩
    · exact routed
    · cases left
  · exact encodes (.option char) (some 'λ') _ (.inl rfl)

end Codec
end TypedWire
