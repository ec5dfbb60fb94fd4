import TypedWire.Proofs.Frame
import TypedWire.Proofs.Reading
import TypedWire.Proofs.Settling
import TypedWire.Proofs.Standard

/-! A decoder scans a frame for a value if it takes every spelling of it for that value, and otherwise
refuses the first length that is above the limit. -/

namespace TypedWire

/-- The limit allows every length in the frame. -/
def Frame.Allowed (limits : DecodeLimits) (frame : Frame) : Prop :=
  ∀ n, .length n ∈ frame → n ≤ limits.maxLength.toNat

/-- Of the lengths in a frame that are above a limit, one comes first. -/
theorem Frame.first_above {limits : DecodeLimits} {frame : Frame}
    (above : ∃ n, .length n ∈ frame ∧ limits.maxLength.toNat < n) :
    ∃ (front : Frame) (n : Nat) (back : Frame),
      frame = front ++ .length n :: back ∧ front.Allowed limits ∧ limits.maxLength.toNat < n := by
  induction frame with
  | nil => simp at above
  | cons part frame ih =>
    by_cases first : ∃ n, part = .length n ∧ limits.maxLength.toNat < n
    · obtain ⟨n, rfl, beyond⟩ := first
      exact ⟨[], n, frame, rfl, fun m member => by simp at member, beyond⟩
    · have later : ∃ n, .length n ∈ frame ∧ limits.maxLength.toNat < n := by
        obtain ⟨n, member, beyond⟩ := above
        rcases List.mem_cons.mp member with here | there
        · exact absurd ⟨n, here.symm, beyond⟩ first
        · exact ⟨n, there, beyond⟩
      obtain ⟨front, n, back, rfl, allowed, beyond⟩ := ih later
      refine ⟨part :: front, n, back, rfl, fun m member => ?_, beyond⟩
      rcases List.mem_cons.mp member with here | there
      · exact Nat.le_of_not_lt fun greater => first ⟨m, here.symm, greater⟩
      · exact allowed m there

namespace Decoder

variable {α β : Type} {limits : DecodeLimits}

/-- At the front of whatever a source delivers, the decoder takes `bytes` and refuses, as above the limit, the
length that stands in them behind `skipped` others. -/
def Refuses (limits : DecodeLimits) (decoder : Decoder α) (bytes : List Byte) (skipped length : Nat) : Prop :=
  ∀ (source : Source) (place : Nat) (rest : List Byte), source.Serves limits place (bytes ++ rest) →
    ∃ error after, decoder.read source = (.error error, after) ∧
      error.root = .lengthLimit (place + skipped) length limits.maxLength.toNat

/-- The decoder takes spellings of `frame` for `value`, up to a length that is above the limit. -/
structure Scans (limits : DecodeLimits) (decoder : Decoder α) (frame : Frame) (value : α) : Prop where
  reads : frame.Allowed limits → ∀ {bytes : List Byte}, frame.Spells bytes → Reads limits decoder bytes value
  refuses : ∀ {front back : Frame} {n : Nat}, frame = front ++ .length n :: back → front.Allowed limits →
    limits.maxLength.toNat < n → ∀ {before lengthBytes : List Byte}, front.Spells before →
      Varint.Denotes lengthBytes n → Refuses limits decoder (before ++ lengthBytes) before.length n

/-! ### Refusals in sequence -/

theorem Refuses.bind {first : Decoder α} {bytes : List Byte} {skipped n : Nat}
    (refuses : Refuses limits first bytes skipped n) (second : α → Decoder β) :
    Refuses limits (first >>= second) bytes skipped n := by
  intro source place rest serves
  obtain ⟨error, after, read, root⟩ := refuses _ _ _ serves
  exact ⟨error, after, by rw [read_bind, read], root⟩

theorem Reads.refuses {first : Decoder α} {second : α → Decoder β} {front bytes : List Byte} {a : α}
    {skipped n : Nat} (reads : Reads limits first front a) (refuses : Refuses limits (second a) bytes skipped n) :
    Refuses limits (first >>= second) (front ++ bytes) (front.length + skipped) n := by
  intro source place rest serves
  rw [List.append_assoc] at serves
  obtain ⟨between, read, serves⟩ := reads _ _ _ serves
  obtain ⟨error, after, read', root⟩ := refuses _ _ _ serves
  refine ⟨error, after, ?_, ?_⟩
  · rw [read_bind, read]
    exact read'
  · rw [root, Nat.add_assoc]

theorem Refuses.labeled {decoder : Decoder α} {bytes : List Byte} {skipped n : Nat} (label : String)
    (refuses : Refuses limits decoder bytes skipped n) :
    Refuses limits (decoder.labeled label) bytes skipped n := by
  intro source place rest serves
  obtain ⟨error, after, read, root⟩ := refuses _ _ _ serves
  exact ⟨error.labeled label, after, by rw [read_labeled, read], root⟩

theorem Refuses.of_offset {next : Nat → Decoder α} {bytes : List Byte} {skipped n : Nat}
    (refuses : ∀ start, Refuses limits (next start) bytes skipped n) :
    Refuses limits (offset >>= next) bytes skipped n := by
  intro source place rest serves
  exact refuses source.offset _ _ _ serves

/-- Where a decoder that scans a frame yields a value from one of its spellings, it is that value. -/
theorem Scans.eq_of_read {decoder : Decoder α} {frame : Frame} {value other : α}
    (scans : Scans limits decoder frame value) {bytes rest : List Byte} (spells : frame.Spells bytes)
    {source after : Source} {place : Nat} (serves : source.Serves limits place (bytes ++ rest))
    (read : decoder.read source = (.ok other, after)) : other = value := by
  by_cases allowed : frame.Allowed limits
  · obtain ⟨final, read', -⟩ := scans.reads allowed spells _ _ _ serves
    cases read.symm.trans read'
    rfl
  · -- Otherwise the first length above the limit would have been refused.
    have above : ∃ n, .length n ∈ frame ∧ limits.maxLength.toNat < n := by
      simpa [Frame.Allowed] using allowed
    obtain ⟨front, n, back, rfl, allowed, beyond⟩ := Frame.first_above above
    obtain ⟨before, behind, rfl, first, second⟩ := Frame.spells_append_iff.mp spells
    obtain _ | ⟨denotes, others⟩ := second
    rw [List.append_assoc, List.append_assoc, ← List.append_assoc] at serves
    obtain ⟨error, final, refused, -⟩ := scans.refuses rfl allowed beyond first denotes _ _ _ serves
    cases read.symm.trans refused

/-! ### Scans in sequence -/

theorem scans_pure (value : α) : Scans limits (pure value) [] value where
  reads _ _ spells := by
    cases spells
    exact reads_pure value
  refuses split := by simp at split

/-- Data has no lengths in it. -/
theorem Reads.scans {decoder : Decoder α} {bytes : List Byte} {value : α}
    (reads : Reads limits decoder bytes value) : Scans limits decoder [.data bytes] value where
  reads _ _ spells := by
    rw [Frame.spells_data_iff.mp spells]
    exact reads
  refuses {front _ _} split := by
    cases front with
    | nil => cases split
    | cons part front => simp at split

theorem Scans.bind {first : Decoder α} {second : α → Decoder β} {front back : Frame} {a : α} {b : β}
    (one : Scans limits first front a) (two : Scans limits (second a) back b) :
    Scans limits (first >>= second) (front ++ back) b where
  reads allowed bytes spells := by
    obtain ⟨x, y, rfl, spellsX, spellsY⟩ := Frame.spells_append_iff.mp spells
    have reads := one.reads (fun n member => allowed n (List.mem_append_left _ member)) spellsX
    exact reads.bind (two.reads (fun n member => allowed n (List.mem_append_right _ member)) spellsY)
  refuses {before behind n} split allowed above start lengthBytes spells denotes := by
    rcases List.append_eq_append_iff.mp split with ⟨more, rfl, later⟩ | ⟨more, rfl, later⟩
    · -- The first decoder is through before that length.
      obtain ⟨x, y, rfl, spellsX, spellsY⟩ := Frame.spells_append_iff.mp spells
      have reads := one.reads (fun n member => allowed n (List.mem_append_left _ member)) spellsX
      have refuses := two.refuses later (fun n member => allowed n (List.mem_append_right _ member)) above spellsY
        denotes
      have both := reads.refuses refuses
      rwa [← List.append_assoc, ← List.length_append] at both
    · cases more with
      | nil =>
        have reads := one.reads (fun n member => allowed n (by simpa using member)) (by simpa using spells)
        have later' : back = [] ++ .length n :: behind := later.symm
        have refuses := two.refuses later' (fun n member => by simp at member) above .nil denotes
        have both := reads.refuses refuses
        rwa [List.nil_append, List.length_nil, Nat.add_zero] at both
      | cons part more =>
        obtain ⟨rfl, -⟩ := List.cons.inj later
        exact (one.refuses rfl allowed above spells denotes).bind second

theorem Scans.check {first : Decoder α} {second : α → Decoder β} {frame : Frame} {a : α} {b : β}
    (one : Scans limits first frame a) (two : Scans limits (second a) [] b) :
    Scans limits (first >>= second) frame b := by
  have both := one.bind two
  rwa [List.append_nil] at both

theorem Scans.map {decoder : Decoder α} {frame : Frame} {a : α} (f : α → β) (scans : Scans limits decoder frame a) :
    Scans limits (do return f (← decoder)) frame (f a) :=
  scans.check (scans_pure (f a))

theorem Scans.labeled {decoder : Decoder α} {frame : Frame} {value : α} (label : String)
    (scans : Scans limits decoder frame value) : Scans limits (decoder.labeled label) frame value where
  reads allowed _ spells := (scans.reads allowed spells).labeled label
  refuses split allowed above _ _ spells denotes := (scans.refuses split allowed above spells denotes).labeled label

theorem Scans.of_offset {next : Nat → Decoder α} {frame : Frame} {value : α}
    (scans : ∀ start, Scans limits (next start) frame value) : Scans limits (offset >>= next) frame value where
  reads allowed _ spells := Reads.of_offset fun start => (scans start).reads allowed spells
  refuses split allowed above _ _ spells denotes :=
    Refuses.of_offset fun start => (scans start).refuses split allowed above spells denotes

/-- As many frames as there are elements are scanned one behind the other. -/
theorem scans_replicate {decoder : Decoder α} {f : β → Frame} {g : β → α} {elements : List β}
    (each : ∀ x ∈ elements, Scans limits decoder (f x) (g x)) :
    Scans limits (replicate elements.length decoder) (elements.flatMap f) (elements.map g) := by
  induction elements with
  | nil => exact scans_pure []
  | cons x rest ih =>
    rw [List.length_cons, replicate_succ, List.flatMap_cons, List.map_cons]
    exact (each x (by simp)).bind ((ih fun y member => each y (List.mem_cons_of_mem _ member)).map _)

/-! ### Lengths and what they announce -/

/-- A length above the limit is refused in every spelling. -/
theorem refuses_length {bytes : List Byte} {n : Nat} (above : limits.maxLength.toNat < n)
    (denotes : Varint.Denotes bytes n) : Refuses limits length bytes 0 n := by
  intro source place rest serves
  obtain ⟨after, read, serves'⟩ := reads_varint denotes _ _ _ serves
  have beyond : ¬n ≤ after.limits.maxLength.toNat := by
    rw [serves'.bounds]
    omega
  have refused := (read_bounded source.offset n after).trans (if_neg beyond)
  rw [serves'.bounds, serves.place] at refused
  refine ⟨.lengthLimit place n limits.maxLength.toNat, after, ?_, rfl⟩
  rw [← refused, ← serves.place]
  change (varint >>= bounded source.offset).read source = _
  rw [read_bind, read]

/-- A length is read in every spelling if it is within the limit, and otherwise refused. -/
theorem scans_length (n : Nat) : Scans limits length [.length n] n where
  reads allowed bytes spells := by
    obtain _ | ⟨denotes, others⟩ := spells
    cases others
    rw [List.append_nil]
    exact reads_length (allowed n (by simp)) denotes
  refuses {front _ _} split _ above before lengthBytes spells denotes := by
    cases front with
    | nil =>
      cases split
      cases spells
      exact refuses_length above denotes
    | cons part front => simp at split

theorem scans_payload (bytes : List Byte) :
    Scans limits (do block (← length)) [.length bytes.length, .data bytes] bytes :=
  (scans_length bytes.length).bind (reads_block bytes).scans

theorem scans_text (text : String) :
    Scans limits Decoder.text [.length (Utf8.encode text).length, .data (Utf8.encode text)] text := by
  refine (scans_length (Utf8.encode text).length).bind ?_
  refine Scans.of_offset fun start => ?_
  refine (reads_block (Utf8.encode text)).scans.check ?_
  rw [Utf8.decode_encode]
  exact scans_pure text

theorem scans_gathered {shape : SeqShape} {t : Ty} {decoder : Decoder t.Value} {f : β → Frame} {g : β → t.Value}
    {elements : List β} (each : ∀ x ∈ elements, Scans limits decoder (f x) (g x))
    (gathers : shape.gather t (elements.map g) = .ok (elements.map g)) :
    Scans limits (do gathered shape t (← replicate (← length) decoder))
      (.length elements.length :: elements.flatMap f) (elements.map g) := by
  refine (scans_length elements.length).bind ?_
  refine (scans_replicate each).check ?_
  rw [gathered, gathers]
  exact scans_pure (elements.map g)

/-- Entries of which the map of their shape keeps all. -/
theorem scans_entries {γ : Type} {shape : MapShape} {k : Ty} {entry : Decoder (k.Value × γ)} {f : β → Frame}
    {g : β → k.Value × γ} {elements : List β} (each : ∀ x ∈ elements, Scans limits entry (f x) (g x))
    (inserts : shape.insertAll k [] (elements.map g) = elements.map g) :
    Scans limits (Decoder.entries shape k entry) (.length elements.length :: elements.flatMap f)
      (elements.map g) := by
  rw [entries_eq]
  refine (scans_length elements.length).bind ?_
  refine (scans_replicate each).check ?_
  rw [inserts]
  exact scans_pure (elements.map g)

end Decoder

namespace Codec

variable {limits : DecodeLimits} {t k v : Ty}

open Decoder in
/-- A codec scans the frame of a value that it encodes for what becomes of the value. -/
def ScansFrames (codec : Codec t) (limits : DecodeLimits) : Prop :=
  ∀ {v : t.Value}, t.Valid v → t.ScalesFit v → (∃ bytes, codec.toBytes v = .ok bytes) →
    Scans limits codec.decode (codec.frame v) (t.settle v)

theorem scansFrames_int (sign : Sign) (width : Width) : ScansFrames (.int sign width) limits :=
  fun {v} _ _ _ => (Decoder.reads_word width v).scans

theorem scansFrames_float (p : Precision) : ScansFrames (.float p) limits :=
  fun {v} _ _ _ => (Decoder.reads_word p.width v).scans

theorem scansFrames_bytes : ScansFrames .bytes limits := by
  intro v _ _ _
  have settled : Ty.settle (.seq .vector .byte) v = v := List.map_id' v
  rw [settled]
  exact Decoder.scans_payload v

theorem scansFrames_char : ScansFrames Codec.char limits := by
  rintro v _ _ ⟨bytes, encodes⟩
  obtain ⟨byte, coded, -⟩ := toBytes_derived_iff.mp encodes
  have back := (@Decoder.reads_word limits .one byte).scans.map byteToChar
  rw [byteToChar_charToByte coded] at back
  have framed : Codec.char.frame v = [.data (bigEndian 1 byte.toNat)] := frame_of_mapped coded
  rw [framed]
  exact back

theorem scansFrames_integer : ScansFrames Codec.integer limits := by
  intro v _ _ _
  have back := (@Decoder.scans_payload limits (TwosComplement.encode v)).map TwosComplement.decode
  rw [TwosComplement.decode_encode] at back
  exact back

theorem scansFrames_pair {first : Codec t} {second : Codec k} (one : first.ScansFrames limits)
    (two : second.ScansFrames limits) : ScansFrames (.pair first second) limits := by
  rintro w valid fit ⟨bytes, encodes⟩
  obtain ⟨front, back, fronts, backs, -⟩ := toBytes_pair_iff.mp encodes
  have scans := one valid.1 fit.1 ⟨front, fronts⟩
  have scans' := two valid.2 fit.2 ⟨back, backs⟩
  exact (scans.labeled "first").bind ((scans'.labeled "second").map fun y => (_, y))

theorem scansFrames_triple {first : Codec t} {second : Codec k} {third : Codec v} (one : first.ScansFrames limits)
    (two : second.ScansFrames limits) (three : third.ScansFrames limits) :
    ScansFrames (.triple first second third) limits := by
  rintro w valid fit ⟨bytes, encodes⟩
  obtain ⟨front, middle, back, fronts, middles, backs, -⟩ := toBytes_triple_iff.mp encodes
  have scans := one valid.1 fit.1 ⟨front, fronts⟩
  have scans' := two valid.2.1 fit.2.1 ⟨middle, middles⟩
  have scans'' := three valid.2.2 fit.2.2 ⟨back, backs⟩
  exact (scans.labeled "first").bind
    ((scans'.labeled "second").bind ((scans''.labeled "third").map fun z => (_, _, z)))

theorem scansFrames_decimal : ScansFrames Codec.decimal limits := by
  rintro v _ _ ⟨bytes, encodes⟩
  obtain ⟨n, normal, encodes⟩ := toBytes_decimal_iff.mp encodes
  have pairs : ScansFrames (.pair (.int .signed .eight) Codec.integer) limits :=
    scansFrames_pair (scansFrames_int .signed .eight) scansFrames_integer
  have settled : Ty.settle .decimal v = n := congrArg (fun found : Option Decimal => found.getD v) normal
  rw [settled, Codec.decimal, frame_of_mapped (decimalParts_of_normal normal)]
  exact (pairs ⟨trivial, trivial⟩ ⟨trivial, trivial⟩ ⟨bytes, encodes⟩).map fun parts => Decimal.mk parts.2 parts.1

theorem scansFrames_option {codec : Codec t} (scans : codec.ScansFrames limits) :
    ScansFrames (.option codec) limits := by
  rintro v valid fit ⟨bytes, encodes⟩
  cases v with
  | none => exact (Decoder.reads_flag false).scans.check (Decoder.scans_pure none)
  | some inner =>
    obtain ⟨back, encodes', -⟩ := toBytes_some_iff.mp encodes
    have inside := scans (valid inner rfl) (fit inner rfl) ⟨back, encodes'⟩
    exact (Decoder.reads_flag true).scans.bind ((inside.labeled "value").map some)

theorem scansFrames_seq {shape : SeqShape} {codec : Codec t} (ordered : shape.order ≠ .insertion → t.Ordered)
    (scans : codec.ScansFrames limits) : ScansFrames (.seq shape codec) limits := by
  rintro v valid fit ⟨bytes, encodes⟩
  obtain ⟨parts, image, -⟩ := toBytes_seq_iff.mp encodes
  have gathers := SeqShape.gather_of_holds ordered (Ty.holds_settle ordered valid.1)
  refine Decoder.scans_gathered (fun x member => ?_) gathers
  obtain ⟨part, -, encodes'⟩ := exists_image_of_mem image member
  exact scans (valid.2 x member) (fit x member) ⟨part, encodes'⟩

theorem scansFrames_map {shape : MapShape} {keyCodec : Codec k} {valueCodec : Codec v} (ordered : k.Ordered)
    (keys : keyCodec.ScansFrames limits) (values : valueCodec.ScansFrames limits) :
    ScansFrames (.map shape keyCodec valueCodec) limits := by
  rintro w valid fit ⟨bytes, encodes⟩
  obtain ⟨parts, image, -⟩ := toBytes_map_iff.mp encodes
  have inserts := MapShape.insertAll_of_holds ordered
    (Ty.map_holds_settle ordered valid.1)
  refine Decoder.scans_entries (fun entry member => ?_) inserts
  obtain ⟨part, -, front, back, first, second, -⟩ := exists_image_of_mem image member
  have key := keys (valid.2 entry member).1 (fit entry member).1 ⟨front, first⟩
  have value := values (valid.2 entry member).2 (fit entry member).2 ⟨back, second⟩
  exact (key.labeled "key").bind ((value.labeled "value").map fun y => (_, y))

/-- Every standard codec scans the frames of what it encodes. -/
theorem Standard.scansFrames {codec : Codec t} (standard : codec.Standard) (limits : DecodeLimits) :
    codec.ScansFrames limits := by
  induction standard with
  | int sign width => exact scansFrames_int sign width
  | float p => exact scansFrames_float p
  | bool => exact fun {v} _ _ _ => (Decoder.reads_flag v).scans
  | unit => exact fun _ _ _ => Decoder.scans_pure ()
  | never => exact fun {v} => v.elim
  | text => exact fun {v} _ _ _ => Decoder.scans_text v
  | bytes => exact scansFrames_bytes
  | char => exact scansFrames_char
  | integer => exact scansFrames_integer
  | decimal => exact scansFrames_decimal
  | seq shape ordered _ ih => exact scansFrames_seq ordered ih
  | map shape ordered _ _ ihk ihv => exact scansFrames_map ordered ihk ihv
  | option _ ih => exact scansFrames_option ih
  | pair _ _ iha ihb => exact scansFrames_pair iha ihb
  | triple _ _ _ iha ihb ihc => exact scansFrames_triple iha ihb ihc

end Codec
end TypedWire
