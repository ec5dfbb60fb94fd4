import TypedWire.Proofs.CountedReading

/-! While a codec is read it comes to its components, each from where what came before it ended. So the
labels of an error are those of the slots on the way to one codec, which raised what lies below them while
all of its components succeeded. -/

namespace TypedWire

/-! ### Places -/

/-- The label that an error gets on its way out of the slot. There is none around elements, nor around a base. -/
def Slot.tag? : Slot → Option String
  | .element => none
  | slot => slot.label?

/-- The codec that stands in the slots of `place`, from the outermost inwards, if there is one. -/
def Codec.partAt : (place : List Slot) → (whole : AnyCodec) → Option AnyCodec
  | [], whole => some whole
  | slot :: place, whole => (whole.2.component? slot).bind (partAt place)

/-- Steps into slots lead from `whole` to `part`. -/
inductive Leads {Job : Type} (enters : Job → Slot → Job → Prop) : (whole : Job) → List Slot → (part : Job) → Prop
  | here (job : Job) : Leads enters job [] job
  | inside {whole part inner : Job} {slot : Slot} {place : List Slot} (into : enters whole slot part)
      (onward : Leads enters part place inner) : Leads enters whole (slot :: place) inner

/-- The labels are those of the slots of `place`, and these lead from the whole to the part that stands in them. -/
structure Tracks {Job : Type} (enters : Job → Slot → Job → Prop) (codecOf : Job → AnyCodec) (labels : List String)
    (whole : Job) (place : List Slot) (part : Job) : Prop where
  leads : Leads enters whole place part
  stands : Codec.partAt place (codecOf whole) = some (codecOf part)
  labeled : labels = place.filterMap Slot.tag?

namespace Tracks

variable {Job : Type} {enters : Job → Slot → Job → Prop} {codecOf : Job → AnyCodec} {labels : List String}
  {whole part inner : Job} {slot : Slot} {place : List Slot}

theorem here (job : Job) : Tracks enters codecOf [] job [] job := ⟨.here job, rfl, rfl⟩

theorem inside (into : enters whole slot part) (component : (codecOf whole).2.component? slot = some (codecOf part))
    (tracks : Tracks enters codecOf labels part place inner) :
    Tracks enters codecOf (slot.tag?.toList ++ labels) whole (slot :: place) inner := by
  refine ⟨.inside into tracks.leads, ?_, ?_⟩
  · rw [Codec.partAt, component]
    exact tracks.stands
  · rw [tracks.labeled]
    cases tag : slot.tag? with
    | none => rw [List.filterMap_cons_none tag]; rfl
    | some label => rw [List.filterMap_cons_some tag]; rfl

end Tracks

/-! ### Kinds of errors -/

inductive DecodeError.Kind where
  | io
  | unexpectedEof
  | malformedVarint
  | lengthLimit
  | invalidFlag
  | invalidUtf8
  | uninhabited
  | elementCount
  | mapping
  | trailingBytes
  | component
deriving DecidableEq, Repr

namespace DecodeError

def kind : DecodeError → Kind
  | .io _ _ => .io
  | .unexpectedEof _ => .unexpectedEof
  | .malformedVarint _ => .malformedVarint
  | .lengthLimit _ _ _ => .lengthLimit
  | .invalidFlag _ _ => .invalidFlag
  | .invalidUtf8 _ _ => .invalidUtf8
  | .uninhabited => .uninhabited
  | .elementCount _ _ => .elementCount
  | .mapping _ => .mapping
  | .trailingBytes _ _ => .trailingBytes
  | .component _ _ => .component

/-- What may go wrong with the bytes of a fixed-width number. -/
def streamFaults : List Kind := [.io, .unexpectedEof]

/-- What may go wrong with a number of varying length. -/
def varintFaults : List Kind := .malformedVarint :: streamFaults

/-- What may go wrong with a length and the payload behind it. -/
def lengthFaults : List Kind := .lengthLimit :: varintFaults

theorem bare_of_kind {error : DecodeError} (bare : error.kind ≠ .component) :
    error.labels = [] ∧ error.root = error := by
  cases error with
  | component label cause => exact absurd rfl bare
  | _ => exact ⟨rfl, rfl⟩

end DecodeError

open DecodeError (streamFaults varintFaults lengthFaults)

/-- The kinds of errors that a codec itself may raise while it is read. -/
def Codec.readFaults : {t : Ty} → Codec t → List DecodeError.Kind
  | _, .int _ _ => streamFaults
  | _, .float _ => streamFaults
  | _, .bool => .invalidFlag :: streamFaults
  | _, .unit => []
  | _, .never => [.uninhabited]
  | _, .text => .invalidUtf8 :: lengthFaults
  | _, .bytes => lengthFaults
  | _, .compact _ _ => .mapping :: varintFaults
  | _, .derived _ _ _ _ => [.mapping]
  | _, .terse _ _ _ => []
  | _, .seq (.array _) _ => .elementCount :: lengthFaults
  | _, .seq _ _ => lengthFaults
  | _, .map _ _ _ => lengthFaults
  | _, .option _ => .invalidFlag :: streamFaults
  | _, .pair _ _ => []
  | _, .triple _ _ _ => []

theorem Codec.component_not_mem_readFaults {t : Ty} (codec : Codec t) : .component ∉ codec.readFaults := by
  cases codec with
  | seq shape codec =>
    cases shape <;>
      simp [readFaults, lengthFaults, varintFaults, streamFaults]
  | _ => simp [readFaults, lengthFaults, varintFaults, streamFaults]

theorem Codec.lengthFaults_subset_readFaults (shape : SeqShape) {element : Ty} (codec : Codec element) :
    lengthFaults ⊆ (Codec.seq shape codec).readFaults := by
  cases shape with
  | array size => exact List.subset_cons_self _ _
  | _ => exact List.Subset.refl _

theorem Codec.mem_readFaults_of_gather {shape : SeqShape} {element : Ty} (codec : Codec element)
    {elements : List element.Value} {error : DecodeError} (refused : (shape.gather element elements).mapError
      (fun mismatch => DecodeError.elementCount mismatch.expected mismatch.found) = .error error) :
    error.kind ∈ (Codec.seq shape codec).readFaults := by
  cases shape with
  | array size =>
    cases gathered : SeqShape.gather (.array size) element elements with
    | ok container =>
      rw [gathered] at refused
      cases refused
    | error mismatch =>
      rw [gathered] at refused
      cases refused
      exact List.mem_cons_self
  | _ => cases refused

namespace Decoder

variable {α β : Type} {kinds : List DecodeError.Kind}

/-! ### Failures of decoders -/

/-- Whatever the decoder raises is of one of the kinds. -/
def FailsWith (kinds : List DecodeError.Kind) (decoder : Decoder α) : Prop :=
  ∀ (source after : Source) (error : DecodeError), decoder.read source = (.error error, after) → error.kind ∈ kinds

theorem failsWith_pure (value : α) : FailsWith kinds (pure value) := fun _ _ _ read => nomatch read

theorem failsWith_throw {error : DecodeError} (member : error.kind ∈ kinds) :
    FailsWith kinds (throw error : Decoder α) := by
  intro source after error' read
  cases read
  exact member

theorem FailsWith.mono {more : List DecodeError.Kind} {decoder : Decoder α} (fails : FailsWith kinds decoder)
    (subset : kinds ⊆ more) : FailsWith more decoder :=
  fun source after error read => subset (fails source after error read)

theorem FailsWith.bind {first : Decoder α} {second : α → Decoder β} (one : FailsWith kinds first)
    (two : ∀ value, FailsWith kinds (second value)) : FailsWith kinds (first >>= second) := by
  intro source after error read
  rcases error_of_read_bind read with failed | ⟨value, between, -, failed⟩
  · exact one _ _ _ failed
  · exact two value _ _ _ failed

theorem FailsWith.ite {condition : Prop} [Decidable condition] {yes no : Decoder α} (one : FailsWith kinds yes)
    (other : FailsWith kinds no) : FailsWith kinds (if condition then yes else no) := by
  by_cases holds : condition
  · rwa [if_pos holds]
  · rwa [if_neg holds]

theorem FailsWith.of_offset {next : Nat → Decoder α} (fails : ∀ start, FailsWith kinds (next start)) :
    FailsWith kinds (offset >>= next) :=
  FailsWith.bind (fun _ _ _ read => nomatch read) fails

theorem failsWith_exactly (count : Nat) : FailsWith streamFaults (exactly count) := by
  intro source after error read
  simp only [Decoder.read, exactly] at read
  rcases pulled : source.reader.pull count with ⟨⟨bytes, _ | _ | failure⟩, reader⟩
  · rw [pulled] at read
    cases read
  · rw [pulled] at read
    cases read
    exact .tail _ (.head _)
  · rw [pulled] at read
    by_cases early : failure.kind = .unexpectedEof
    · simp only [if_pos early] at read
      cases read
      exact .tail _ (.head _)
    · simp only [if_neg early] at read
      cases read
      exact .head _

theorem failsWith_block (count : Nat) : FailsWith streamFaults (block count) := by
  intro source after error read
  simp only [Decoder.read, block] at read
  rcases pulled : source.reader.pull count with ⟨⟨bytes, _ | _ | failure⟩, reader⟩
  · rw [pulled] at read
    cases read
  · rw [pulled] at read
    cases read
    exact .tail _ (.head _)
  · rw [pulled] at read
    cases read
    exact .head _

theorem failsWith_word (w : Width) : FailsWith streamFaults (word w) :=
  (failsWith_exactly w.bytes).bind fun _ => failsWith_pure _

theorem failsWith_byte : FailsWith streamFaults byte := failsWith_word .one

theorem failsWith_flag : FailsWith (.invalidFlag :: streamFaults) flag := by
  refine FailsWith.of_offset fun start => (failsWith_byte.mono (List.subset_cons_self _ _)).bind fun byte => ?_
  exact (failsWith_pure _).ite ((failsWith_pure _).ite (failsWith_throw List.mem_cons_self))

theorem failsWith_varintFrom (start more : Nat) (seen : List Byte) :
    FailsWith varintFaults (varintFrom start more seen) := by
  induction more generalizing seen with
  | zero => exact failsWith_throw List.mem_cons_self
  | succ more ih =>
    refine (failsWith_byte.mono (List.subset_cons_self _ _)).bind fun byte => FailsWith.ite ?_ (ih _)
    split
    · exact failsWith_pure _
    · exact failsWith_throw List.mem_cons_self

theorem failsWith_varint : FailsWith varintFaults varint :=
  FailsWith.of_offset fun start => failsWith_varintFrom start _ _

theorem failsWith_length : FailsWith lengthFaults length := by
  refine FailsWith.of_offset fun start => (failsWith_varint.mono (List.subset_cons_self _ _)).bind fun value => ?_
  refine FailsWith.bind (fun _ _ _ read => nomatch read) fun limits => ?_
  exact (failsWith_pure _).ite (failsWith_throw List.mem_cons_self)

theorem failsWith_payload : FailsWith lengthFaults (do block (← length)) :=
  failsWith_length.bind fun count => (failsWith_block count).mono (by decide)

theorem failsWith_text : FailsWith (.invalidUtf8 :: lengthFaults) text := by
  refine (failsWith_length.mono (List.subset_cons_self _ _)).bind fun count => FailsWith.of_offset fun start => ?_
  refine ((failsWith_block count).mono (by decide)).bind fun bytes => ?_
  split
  · exact failsWith_pure _
  · exact failsWith_throw List.mem_cons_self

theorem failsWith_compact : FailsWith (.mapping :: varintFaults) compact := by
  refine (failsWith_varint.mono (List.subset_cons_self _ _)).bind fun value => ?_
  exact (failsWith_pure _).ite (failsWith_throw List.mem_cons_self)

theorem failsWith_mapped (result : Except String α) : FailsWith [.mapping] (mapped result) := by
  cases result with
  | ok value => exact failsWith_pure value
  | error text => exact failsWith_throw List.mem_cons_self

/-- A repetition that has yielded some of its values goes on with the next one. -/
theorem Yields.read_of_lt {decoder : Decoder α} {source after between : Source} {values front : List α}
    (all : decoder.Yields source values after) (some : decoder.Yields source front between)
    (early : front.length < values.length) : ∃ value behind, decoder.read between = (.ok value, behind) := by
  induction some generalizing values with
  | done source =>
    cases all with
    | done => cases early
    | next read others => exact ⟨_, _, read⟩
  | next read _ ih =>
    cases all with
    | done => cases early
    | next read' others =>
      cases read.symm.trans read'
      exact ih others (Nat.lt_of_succ_lt_succ early)

end Decoder

/-! ### Reading, component by component -/

/-- A codec and the source that it reads from. -/
structure Reading where
  {t : Ty}
  codec : Codec t
  source : Source

namespace Reading

def any (reading : Reading) : AnyCodec := ⟨reading.t, reading.codec⟩

/-- Reading a codec comes to a component of it. What stands before the component has been read then, and the source
is where that ended. -/
inductive Enters : Reading → Slot → Reading → Prop
  | derived {base target : Ty} {name : String} {codec : Codec base} {toBase : target.Value → Except Refusal base.Value}
      {fromBase : base.Value → Except String target.Value} {source : Source} :
      Enters ⟨.derived name codec toBase fromBase, source⟩ .base ⟨codec, source⟩
  | terse {name : String} {objection : Option String} {t : Ty} {codec : Codec t} {source : Source} :
      Enters ⟨.terse name objection codec, source⟩ .base ⟨codec, source⟩
  | element {shape : SeqShape} {t : Ty} {codec : Codec t} {source first between : Source} {count : Nat}
      {elements : List t.Value} (counted : Decoder.length.read source = (.ok count, first))
      (yields : codec.decode.Yields first elements between) (early : elements.length < count) :
      Enters ⟨.seq shape codec, source⟩ .element ⟨codec, between⟩
  | key {shape : MapShape} {k v : Ty} {key : Codec k} {value : Codec v} {source first between : Source} {count : Nat}
      {entries : List (k.Value × v.Value)} (counted : Decoder.length.read source = (.ok count, first))
      (yields : (Decoder.entry key.decode value.decode).Yields first entries between)
      (early : entries.length < count) : Enters ⟨.map shape key value, source⟩ .key ⟨key, between⟩
  | value {shape : MapShape} {k v : Ty} {key : Codec k} {value : Codec v} {source first between behind : Source}
      {count : Nat} {entries : List (k.Value × v.Value)} {x : k.Value}
      (counted : Decoder.length.read source = (.ok count, first))
      (yields : (Decoder.entry key.decode value.decode).Yields first entries between)
      (early : entries.length < count) (read : key.read between = (.ok x, behind)) :
      Enters ⟨.map shape key value, source⟩ .value ⟨value, behind⟩
  | some {t : Ty} {codec : Codec t} {source between : Source} (there : Decoder.flag.read source = (.ok true, between)) :
      Enters ⟨.option codec, source⟩ .value ⟨codec, between⟩
  | pairFirst {s t : Ty} {a : Codec s} {b : Codec t} {source : Source} :
      Enters ⟨.pair a b, source⟩ .first ⟨a, source⟩
  | pairSecond {s t : Ty} {a : Codec s} {b : Codec t} {source between : Source} {x : s.Value}
      (read : a.read source = (.ok x, between)) : Enters ⟨.pair a b, source⟩ .second ⟨b, between⟩
  | tripleFirst {s t u : Ty} {a : Codec s} {b : Codec t} {c : Codec u} {source : Source} :
      Enters ⟨.triple a b c, source⟩ .first ⟨a, source⟩
  | tripleSecond {s t u : Ty} {a : Codec s} {b : Codec t} {c : Codec u} {source between : Source} {x : s.Value}
      (read : a.read source = (.ok x, between)) : Enters ⟨.triple a b c, source⟩ .second ⟨b, between⟩
  | tripleThird {s t u : Ty} {a : Codec s} {b : Codec t} {c : Codec u} {source between behind : Source} {x : s.Value}
      {y : t.Value} (read : a.read source = (.ok x, between)) (read' : b.read between = (.ok y, behind)) :
      Enters ⟨.triple a b c, source⟩ .third ⟨c, behind⟩

theorem Enters.component {whole part : Reading} {slot : Slot} (enters : Enters whole slot part) :
    whole.any.2.component? slot = Option.some part.any := by
  cases enters <;> rfl

/-- The reading raises the error itself: it fails with it, it is able to, and all components that it comes to are
read. -/
structure Raises (part : Reading) (error : DecodeError) (after : Source) : Prop where
  fails : part.codec.read part.source = (.error error, after)
  alone : ∀ slot inner, Enters part slot inner → ∃ value behind, inner.codec.read inner.source = (.ok value, behind)
  able : error.kind ∈ part.codec.readFaults

/-- The labels of the error lead to a reading that raised what lies below them. -/
def Routed (whole : Reading) (error : DecodeError) (after : Source) : Prop :=
  ∃ place part, Tracks Enters any error.labels whole place part ∧ part.Raises error.root after

variable {whole part : Reading} {slot : Slot} {error : DecodeError} {after : Source}

theorem routed_of_raises (raises : part.Raises error after) : part.Routed error after := by
  have bare : error.kind ≠ .component := by
    intro component
    exact part.codec.component_not_mem_readFaults (component ▸ raises.able)
  obtain ⟨labels, root⟩ := DecodeError.bare_of_kind bare
  exact ⟨[], part, labels ▸ .here part, root.symm ▸ raises⟩

theorem Routed.through (into : Enters whole slot part) (bare : slot.tag? = none) (routed : part.Routed error after) :
    whole.Routed error after := by
  obtain ⟨place, inner, tracks, raised⟩ := routed
  have further := tracks.inside into into.component
  rw [bare] at further
  exact ⟨slot :: place, inner, further, raised⟩

theorem Routed.of_labeled {label : String} (into : Enters whole slot part) (tagged : slot.tag? = Option.some label)
    (inner : ∀ {cause}, part.codec.read part.source = (.error cause, after) → part.Routed cause after)
    (failed : (part.codec.decode.labeled label).read part.source = (.error error, after)) :
    whole.Routed error after := by
  obtain ⟨cause, raised, rfl⟩ := Decoder.error_of_read_labeled failed
  obtain ⟨place, inner, tracks, raised⟩ := inner raised
  have further := tracks.inside into into.component
  rw [tagged] at further
  exact ⟨slot :: place, inner, further, raised⟩

theorem routed_of_leaf {t : Ty} {codec : Codec t} {source : Source} (leaf : codec.slots = [])
    (able : Decoder.FailsWith codec.readFaults codec.decode) (read : codec.read source = (.error error, after)) :
    Routed ⟨codec, source⟩ error after := by
  refine routed_of_raises ⟨read, fun slot inner enters => ?_, able _ _ _ read⟩
  have component := enters.component
  rw [Codec.component?, any, leaf] at component
  cases component

/-- Whoever follows the labels of an error from the codec that was read comes to the codec that raised it. -/
theorem routed_of_read {t : Ty} (codec : Codec t) {source after : Source} {error : DecodeError}
    (read : codec.read source = (.error error, after)) : Routed ⟨codec, source⟩ error after := by
  induction codec generalizing source error after with
  | int sign width => exact routed_of_leaf rfl (Decoder.failsWith_word width) read
  | float p => exact routed_of_leaf rfl (Decoder.failsWith_word p.width) read
  | bool => exact routed_of_leaf rfl Decoder.failsWith_flag read
  | unit => cases read
  | never => exact routed_of_leaf rfl (Decoder.failsWith_throw List.mem_cons_self) read
  | text => exact routed_of_leaf rfl Decoder.failsWith_text read
  | bytes => exact routed_of_leaf rfl Decoder.failsWith_payload read
  | compact name objection => exact routed_of_leaf rfl Decoder.failsWith_compact read
  | derived name codec toBase fromBase ih =>
    rcases Decoder.error_of_read_bind read with failed | ⟨base, between, inner, refused⟩
    · exact (ih failed).through .derived rfl
    · refine routed_of_raises ⟨read, ?_, Decoder.failsWith_mapped _ _ _ _ refused⟩
      rintro slot part ⟨⟩
      exact ⟨base, between, inner⟩
  | terse name objection codec ih => exact (ih read).through .terse rfl
  | seq shape codec ih =>
    have parts := read
    rw [Codec.read_seq_inParts] at parts
    rcases Decoder.inParts_eq_error_cases parts with uncounted | ⟨count, first, counted,
      ⟨elements, between, yields, early, failed⟩ | ⟨elements, yields, whole, refused⟩⟩
    · have able := Codec.lengthFaults_subset_readFaults shape codec (Decoder.failsWith_length _ _ _ uncounted)
      refine routed_of_raises ⟨read, ?_, able⟩
      rintro slot part (_ | _ | counted)
      cases uncounted.symm.trans counted
    · exact (ih failed).through (.element counted yields early) rfl
    · refine routed_of_raises ⟨read, ?_, ?_⟩
      · rintro slot part (_ | _ | ⟨counted', yields', early⟩)
        cases counted.symm.trans counted'
        exact yields.read_of_lt yields' (whole ▸ early)
      · exact codec.mem_readFaults_of_gather refused
  | map shape key value ihk ihv =>
    have parts := read
    rw [Codec.read_map_inParts] at parts
    rcases Decoder.inParts_eq_error_cases parts with uncounted | ⟨count, first, counted,
      ⟨entries, between, yields, early, failed⟩ | ⟨entries, yields, whole, refused⟩⟩
    · refine routed_of_raises ⟨read, ?_, Decoder.failsWith_length _ _ _ uncounted⟩
      rintro slot part (_ | _ | _ | counted | counted)
      · cases uncounted.symm.trans counted
      · cases uncounted.symm.trans counted
    · rcases Decoder.error_of_read_bind failed with failed | ⟨x, behind, read', failed⟩
      · exact .of_labeled (.key counted yields early) rfl ihk failed
      · have read' := Decoder.read_labeled_eq_ok_iff.mp read'
        rcases Decoder.error_of_read_bind failed with failed | ⟨y, last, -, failed⟩
        · exact .of_labeled (.value counted yields early read') rfl ihv failed
        · cases failed
    · cases refused
  | option codec ih =>
    rcases Decoder.error_of_read_bind read with failed | ⟨there, between, flagged, failed⟩
    · refine routed_of_raises ⟨read, ?_, Decoder.failsWith_flag _ _ _ failed⟩
      rintro slot part (_ | _ | _ | _ | _ | there)
      cases failed.symm.trans there
    · cases there with
      | false => cases failed
      | true =>
        rcases Decoder.error_of_read_bind failed with failed | ⟨inner, last, -, failed⟩
        · exact .of_labeled (.some flagged) rfl ih failed
        · cases failed
  | pair a b iha ihb =>
    rcases Decoder.error_of_read_bind read with failed | ⟨x, between, readA, failed⟩
    · exact .of_labeled .pairFirst rfl iha failed
    have readA := Decoder.read_labeled_eq_ok_iff.mp readA
    rcases Decoder.error_of_read_bind failed with failed | ⟨y, last, -, failed⟩
    · exact .of_labeled (.pairSecond readA) rfl ihb failed
    · cases failed
  | triple a b c iha ihb ihc =>
    rcases Decoder.error_of_read_bind read with failed | ⟨x, between, readA, failed⟩
    · exact .of_labeled .tripleFirst rfl iha failed
    have readA := Decoder.read_labeled_eq_ok_iff.mp readA
    rcases Decoder.error_of_read_bind failed with failed | ⟨y, behind, readB, failed⟩
    · exact .of_labeled (.tripleSecond readA) rfl ihb failed
    have readB := Decoder.read_labeled_eq_ok_iff.mp readB
    rcases Decoder.error_of_read_bind failed with failed | ⟨z, last, -, failed⟩
    · exact .of_labeled (.tripleThird readA readB) rfl ihc failed
    · cases failed

end Reading
end TypedWire
