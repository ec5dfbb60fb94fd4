import TypedWire.Proofs.DecoderParts
import TypedWire.Proofs.FirstRefusal
import TypedWire.Proofs.ReadingInto

/-! However many elements a count announces, no more of them come whole than there are bytes behind it:
every codec but those made of units alone takes a byte for each value. -/

namespace TypedWire

theorem Reader.length_of_pull {count : Nat} {reader after : Reader} {bytes : List Byte}
    (pulled : reader.pull count = ((bytes, none), after)) : bytes.length = count := by
  obtain ⟨got, refused, -⟩ := take_supply reader.ending count reader.script
  have front : bytes = (supply reader.script).take count := (congrArg (·.1.1) pulled).symm.trans got
  have unrefused := refused.symm.trans (congrArg (·.1.2) pulled)
  by_cases enough : count ≤ (supply reader.script).length
  · rw [front, List.length_take_of_le enough]
  · rw [if_neg enough] at unrefused
    cases unrefused

/-! ### Going on in a source -/

/-- From one source to the other bytes came off the front of the stream, and the offset counts no others. -/
structure Source.Onward (source after : Source) : Prop where
  left : after.reader.held <:+ source.reader.held
  forward : source.offset ≤ after.offset
  covered : after.offset + after.reader.held.length ≤ source.offset + source.reader.held.length

namespace Source.Onward

theorem refl (source : Source) : source.Onward source := ⟨List.suffix_rfl, Nat.le_refl _, Nat.le_refl _⟩

theorem trans {source between after : Source} (one : source.Onward between) (two : between.Onward after) :
    source.Onward after :=
  ⟨two.left.trans one.left, Nat.le_trans one.forward two.forward, Nat.le_trans two.covered one.covered⟩

/-- What a stream delivers comes off its front, and may be counted. -/
theorem of_pull {source : Source} {count moved : Nat} {bytes : List Byte} {refusal : Option ReadRefusal}
    {reader : Reader} (pulled : source.reader.pull count = ((bytes, refusal), reader))
    (within : moved ≤ bytes.length) : source.Onward ⟨reader, source.offset + moved, source.limits⟩ := by
  have parts := Reader.held_pull count source.reader
  rw [pulled] at parts
  refine ⟨⟨bytes, parts⟩, Nat.le_add_right _ _, ?_⟩
  simp only [← parts, List.length_append]
  omega

/-- At least as many bytes came off the stream as the offset moved. -/
theorem exists_taken {source after : Source} (onward : source.Onward after) :
    ∃ taken, source.reader.held = taken ++ after.reader.held ∧ after.offset ≤ source.offset + taken.length := by
  obtain ⟨⟨taken, parts⟩, -, covered⟩ := onward
  refine ⟨taken, parts.symm, ?_⟩
  rw [← parts, List.length_append] at covered
  omega

end Source.Onward

namespace Decoder

variable {α β : Type}

theorem onward_exactly (count : Nat) (source : Source) : source.Onward ((exactly count).read source).2 := by
  simp only [read, exactly]
  rcases pulled : source.reader.pull count with ⟨⟨bytes, _ | _ | failure⟩, reader⟩
  · exact .of_pull pulled (Nat.le_refl _)
  · exact .of_pull pulled (Nat.zero_le _)
  · exact .of_pull pulled (Nat.zero_le _)

theorem onward_block (count : Nat) (source : Source) : source.Onward ((block count).read source).2 := by
  simp only [read, block]
  rcases pulled : source.reader.pull count with ⟨⟨bytes, _ | _ | failure⟩, reader⟩
  · exact .of_pull pulled (Nat.le_refl _)
  · exact .of_pull pulled (Nat.zero_le _)
  · exact .of_pull pulled (Nat.zero_le _)

/-- Whether it succeeds or fails, a decoder only goes on. -/
theorem Built.onward {decoder : Decoder α} (built : Built decoder) (source : Source) :
    source.Onward (decoder.read source).2 := by
  induction built generalizing source with
  | pure value => exact .refl source
  | throw error => exact .refl source
  | offset => exact .refl source
  | bounded start value =>
    rw [read_bounded]
    split <;> exact .refl source
  | exactly count => exact onward_exactly count source
  | block count => exact onward_block count source
  | bind _ _ one two =>
    rw [read_bind]
    specialize one source
    rcases first : Decoder.read _ source with ⟨error | value, between⟩
    · rwa [first] at one
    · rw [first] at one
      exact one.trans (two value between)
  | labeled label _ ih =>
    rw [read_labeled]
    specialize ih source
    rcases inner : Decoder.read _ source with ⟨error | value, between⟩
    · rwa [inner] at ih
    · rwa [inner] at ih

theorem Built.onward_of_read {decoder : Decoder α} (built : Built decoder) {source after : Source}
    {result : Except DecodeError α} (read : decoder.read source = (result, after)) : source.Onward after := by
  have onward := built.onward source
  rwa [read] at onward

theorem Built.onward_yields {part : Decoder α} (built : Built part) {source after : Source} {values : List α}
    (yields : part.Yields source values after) : source.Onward after := by
  induction yields with
  | done source => exact .refl source
  | next read _ ih => exact (built.onward_of_read read).trans ih

/-! ### The least that a value costs -/

/-- Every value that the decoder yields costs at least `least` bytes. -/
def Costs (least : Nat) (decoder : Decoder α) : Prop :=
  ∀ (source after : Source) (value : α), decoder.read source = (.ok value, after) →
    source.offset + least ≤ after.offset

theorem Costs.mono {least less : Nat} {decoder : Decoder α} (costs : Costs least decoder) (le : less ≤ least) :
    Costs less decoder :=
  fun _ _ _ read => Nat.le_trans (Nat.add_le_add_left le _) (costs _ _ _ read)

theorem Costs.bind {m n : Nat} {first : Decoder α} {second : α → Decoder β} (one : Costs m first)
    (two : ∀ value, Costs n (second value)) : Costs (m + n) (first >>= second) := by
  intro source after value read
  obtain ⟨a, between, read, read'⟩ := exists_of_read_bind read
  have := one _ _ _ read
  have := two a _ _ _ read'
  omega

theorem Costs.labeled {least : Nat} {decoder : Decoder α} (label : String) (costs : Costs least decoder) :
    Costs least (decoder.labeled label) :=
  fun _ _ _ read => costs _ _ _ (read_labeled_eq_ok_iff.mp read)

theorem costs_throw {least : Nat} (error : DecodeError) : Costs least (throw error : Decoder α) :=
  fun _ _ _ read => nomatch read

theorem Built.costs {decoder : Decoder α} (built : Built decoder) : Costs 0 decoder :=
  fun _ _ _ read => (built.onward_of_read read).forward

theorem Costs.before {least : Nat} {first : Decoder α} {second : α → Decoder β} (costs : Costs least first)
    (built : ∀ value, Built (second value)) : Costs least (first >>= second) :=
  costs.bind fun value => (built value).costs

theorem Costs.of_offset {least : Nat} {next : Nat → Decoder α} (costs : ∀ start, Costs least (next start)) :
    Costs least (offset >>= next) := (Built.offset.costs.bind costs).mono (Nat.le_add_left ..)

theorem costs_exactly (count : Nat) : Costs count (exactly count) := by
  intro source after bytes read
  simp only [Decoder.read, exactly] at read
  rcases pulled : source.reader.pull count with ⟨⟨got, _ | _ | failure⟩, reader⟩
  · rw [pulled] at read
    cases read
    rw [Reader.length_of_pull pulled]
  · rw [pulled] at read
    cases read
  · rw [pulled] at read
    cases read

theorem costs_word (w : Width) : Costs w.bytes (word w) := (costs_exactly w.bytes).before fun _ => .pure _

theorem costs_byte : Costs 1 byte := costs_word .one

theorem costs_flag : Costs 1 flag := by
  refine Costs.of_offset fun start => costs_byte.before fun byte => ?_
  exact (Built.pure false).ite ((Built.pure true).ite (.throw _))

theorem costs_varint : Costs 1 varint := by
  refine Costs.of_offset fun start => ?_
  refine costs_byte.before fun byte => Built.ite ?_ (built_varintFrom start _ _)
  split
  · exact .pure _
  · exact .throw _

theorem costs_length : Costs 1 length :=
  Costs.of_offset fun start => costs_varint.before fun value => .bounded start value

theorem Costs.entry {m n : Nat} {key : Decoder α} {value : Decoder β} (one : Costs m key) (two : Costs n value) :
    Costs (m + n) (entry key value) :=
  (one.labeled "key").bind fun _ => (two.labeled "value").before fun _ => .pure _

theorem Costs.yields {least : Nat} {part : Decoder α} (costs : Costs least part) {source after : Source}
    {values : List α} (yields : part.Yields source values after) :
    source.offset + values.length * least ≤ after.offset := by
  induction yields with
  | done source => simp
  | next read _ ih =>
    have := costs _ _ _ read
    rw [List.length_cons, Nat.succ_mul]
    omega

/-! ### Decoders that read nothing -/

/-- The decoder leaves every source as it is. -/
def Still (decoder : Decoder α) : Prop := ∀ source, (decoder.read source).2 = source

theorem Still.bind {first : Decoder α} {second : α → Decoder β} (one : Still first)
    (two : ∀ value, Still (second value)) : Still (first >>= second) := by
  intro source
  have same := one source
  rw [read_bind]
  rcases read : first.read source with ⟨error | value, between⟩
  · rwa [read] at same
  · rw [read] at same
    rw [← same]
    exact two value between

theorem Still.labeled {decoder : Decoder α} (label : String) (still : Still decoder) :
    Still (decoder.labeled label) := by
  intro source
  have same := still source
  rw [read_labeled]
  rcases read : decoder.read source with ⟨error | value, between⟩
  · rwa [read] at same
  · rwa [read] at same

theorem still_pure (value : α) : Still (pure value) := fun _ => rfl

theorem still_mapped (result : Except String α) : Still (mapped result) := by
  intro source
  cases result <;> rfl

end Decoder

/-! ### Widths of codecs -/

theorem Width.bytes_pos (w : Width) : 1 ≤ w.bytes := by cases w <;> decide

namespace Codec

open Decoder

/-- The codec is made of units alone. -/
def zeroWidth : {t : Ty} → Codec t → Bool
  | _, .unit => true
  | _, .derived _ codec _ _ => codec.zeroWidth
  | _, .terse _ _ codec => codec.zeroWidth
  | _, .pair a b => a.zeroWidth && b.zeroWidth
  | _, .triple a b c => a.zeroWidth && b.zeroWidth && c.zeroWidth
  | _, _ => false

/-- A number of bytes that every value takes. -/
def leastWidth : {t : Ty} → Codec t → Nat
  | _, .int _ w => w.bytes
  | _, .float p => p.width.bytes
  | _, .unit => 0
  | _, .derived _ codec _ _ => codec.leastWidth
  | _, .terse _ _ codec => codec.leastWidth
  | _, .pair a b => a.leastWidth + b.leastWidth
  | _, .triple a b c => a.leastWidth + b.leastWidth + c.leastWidth
  | _, _ => 1

theorem leastWidth_pos {t : Ty} {codec : Codec t} (wide : codec.zeroWidth = false) : 1 ≤ codec.leastWidth := by
  induction codec with
  | unit => cases wide
  | int sign width => exact width.bytes_pos
  | float p => exact p.width.bytes_pos
  | derived name codec toBase fromBase ih => exact ih wide
  | terse name objection codec ih => exact ih wide
  | pair first second ih₁ ih₂ =>
    simp only [zeroWidth, Bool.and_eq_false_iff] at wide
    simp only [leastWidth]
    rcases wide with wide | wide
    · have := ih₁ wide
      omega
    · have := ih₂ wide
      omega
  | triple first second third ih₁ ih₂ ih₃ =>
    simp only [zeroWidth, Bool.and_eq_false_iff] at wide
    simp only [leastWidth]
    rcases wide with (wide | wide) | wide
    · have := ih₁ wide
      omega
    · have := ih₂ wide
      omega
    · have := ih₃ wide
      omega
  | _ => exact Nat.le_refl 1

theorem costs_decode {t : Ty} (codec : Codec t) : Costs codec.leastWidth codec.decode := by
  induction codec with
  | int sign width => exact costs_word width
  | float p => exact costs_word p.width
  | bool => exact costs_flag
  | unit => exact (Built.pure ()).costs
  | never => exact costs_throw _
  | text =>
    refine costs_length.before fun count => Built.offset.bind fun start => (Built.block count).bind fun bytes => ?_
    split
    · exact .pure _
    · exact .throw _
  | bytes => exact costs_length.before fun count => .block count
  | compact name objection => exact costs_varint.before fun value => (Built.pure _).ite (.throw _)
  | derived name codec toBase fromBase ih => exact ih.before fun base => built_mapped _
  | terse name objection codec ih => exact ih
  | seq shape codec =>
    exact costs_length.before fun count =>
      (codec.built_decode.replicate count).bind fun elements => built_gathered _ _ _
  | map shape key value =>
    change Costs 1 (entries _ _ _)
    rw [entries_eq]
    exact costs_length.before fun count =>
      ((key.built_decode.entry value.built_decode).replicate count).bind fun entries => .pure _
  | option codec =>
    refine costs_flag.before fun there => ?_
    cases there with
    | false => exact .pure none
    | true => exact (codec.built_decode.labeled "value").bind fun inner => .pure _
  | pair first second ih₁ ih₂ =>
    exact (ih₁.labeled "first").bind fun x => (ih₂.labeled "second").before fun y => .pure _
  | triple first second third ih₁ ih₂ ih₃ =>
    rw [leastWidth, Nat.add_assoc]
    exact (ih₁.labeled "first").bind fun x => (ih₂.labeled "second").bind fun y =>
      (ih₃.labeled "third").before fun z => .pure _

theorem still_decode {t : Ty} {codec : Codec t} (narrow : codec.zeroWidth = true) : Still codec.decode := by
  induction codec with
  | unit => exact still_pure ()
  | derived name codec toBase fromBase ih => exact (ih narrow).bind fun base => still_mapped _
  | terse name objection codec ih => exact ih narrow
  | pair first second ih₁ ih₂ =>
    simp only [zeroWidth, Bool.and_eq_true] at narrow
    exact ((ih₁ narrow.1).labeled "first").bind fun x => ((ih₂ narrow.2).labeled "second").bind fun y => still_pure _
  | triple first second third ih₁ ih₂ ih₃ =>
    simp only [zeroWidth, Bool.and_eq_true] at narrow
    exact ((ih₁ narrow.1.1).labeled "first").bind fun x => ((ih₂ narrow.1.2).labeled "second").bind fun y =>
      ((ih₃ narrow.2).labeled "third").bind fun z => still_pure _
  | _ => cases narrow

end Codec

/-! ### Counted parts -/

namespace Decoder

variable {α β : Type}

/-- Reads a count and as many parts, up to the first failure, and finishes what came. -/
def inParts (part : Decoder α) (finish : List α → Except DecodeError β) (source : Source) :
    Except DecodeError β × Source :=
  match length.read source with
  | (.error error, first) => (.error error, first)
  | (.ok count, first) =>
    match part.attempts count first with
    | ((values, none), after) => (finish values, after)
    | ((_, some error), after) => (.error error, after)

/-- What is read in parts fails in the count, in the first part that fails, or in finishing them. -/
theorem inParts_eq_error_cases {part : Decoder α} {finish : List α → Except DecodeError β} {source after : Source}
    {error : DecodeError} (read : inParts part finish source = (.error error, after)) :
    length.read source = (.error error, after) ∨
      ∃ count first, length.read source = (.ok count, first) ∧
        ((∃ values between, part.Yields first values between ∧ values.length < count ∧
            part.read between = (.error error, after)) ∨
          ∃ values, part.Yields first values after ∧ values.length = count ∧ finish values = .error error) := by
  unfold inParts at read
  rcases counted : length.read source with ⟨fault | count, first⟩
  · rw [counted] at read
    cases read
    exact .inl rfl
  · rw [counted] at read
    refine .inr ⟨count, first, rfl, ?_⟩
    rcases attempts_cases part count first with
      ⟨values, last, run, yields, whole⟩ | ⟨values, between, fault, last, run, yields, early, failed⟩
    · simp only [run] at read
      obtain ⟨refused, rfl⟩ := Prod.mk.inj read
      exact .inr ⟨values, yields, whole, refused⟩
    · simp only [run] at read
      cases read
      exact .inl ⟨values, between, yields, early, failed⟩

/-- What is read in parts keeps pace with its bytes: it ends where the parts do, fails where one of them does, gets no
more of them whole than bytes are taken behind the count, and does not succeed if the count is above the number of
bytes that are left. -/
structure Paced (part : Decoder α) (whole : Source → Except DecodeError β × Source) : Prop where
  uncounted : ∀ source first error, length.read source = (.error error, first) → whole source = (.error error, first)
  ends : ∀ source first count, length.read source = (.ok count, first) →
    (whole source).2 = (part.attempts count first).2
  fails : ∀ source first count error, length.read source = (.ok count, first) →
    (part.attempts count first).1.2 = some error → (whole source).1 = .error error
  keeps : ∀ source first count, length.read source = (.ok count, first) →
    first.offset + (part.attempts count first).1.1.length ≤ (whole source).2.offset ∧
      ∃ taken, first.reader.held = taken ++ (whole source).2.reader.held ∧
        (part.attempts count first).1.1.length ≤ taken.length
  refuses : ∀ source first count, length.read source = (.ok count, first) →
    first.reader.held.length < count → ∃ error, (whole source).1 = .error error

variable {part : Decoder α}

theorem Built.onward_attempts (built : Built part) (count : Nat) (source : Source) :
    source.Onward (part.attempts count source).2 := by
  rcases attempts_cases part count source with
    ⟨values, after, run, yields, -⟩ | ⟨values, between, error, after, run, yields, -, failed⟩
  · rw [run]
    exact built.onward_yields yields
  · rw [run]
    exact (built.onward_yields yields).trans (built.onward_of_read failed)

/-- The parts that came whole have been paid for, whether one of them failed in the end or not. -/
theorem Costs.attempts {least : Nat} (costs : Costs least part) (built : Built part) (count : Nat) (source : Source) :
    source.offset + (part.attempts count source).1.1.length * least ≤ (part.attempts count source).2.offset := by
  rcases attempts_cases part count source with
    ⟨values, after, run, yields, -⟩ | ⟨values, between, error, after, run, yields, -, failed⟩
  · rw [run]
    exact costs.yields yields
  · rw [run]
    exact Nat.le_trans (costs.yields yields) (built.onward_of_read failed).forward

theorem keeps_attempts (built : Built part) (costs : Costs 1 part) (count : Nat) (source : Source) :
    source.offset + (part.attempts count source).1.1.length ≤ (part.attempts count source).2.offset ∧
      ∃ taken, source.reader.held = taken ++ (part.attempts count source).2.reader.held ∧
        (part.attempts count source).1.1.length ≤ taken.length := by
  have paid := costs.attempts built count source
  obtain ⟨taken, parts, covered⟩ := (built.onward_attempts count source).exists_taken
  rw [Nat.mul_one] at paid
  exact ⟨paid, taken, parts, by omega⟩

theorem paced_inParts (built : Built part) (costs : Costs 1 part) (finish : List α → Except DecodeError β) :
    Paced part (inParts part finish) := by
  have ends (source first : Source) (count : Nat) (counted : length.read source = (.ok count, first)) :
      (inParts part finish source).2 = (part.attempts count first).2 := by
    simp only [inParts, counted]
    rcases part.attempts count first with ⟨⟨values, _ | error⟩, after⟩ <;> rfl
  have fails (source first : Source) (count : Nat) (error : DecodeError)
      (counted : length.read source = (.ok count, first)) (failed : (part.attempts count first).1.2 = some error) :
      (inParts part finish source).1 = .error error := by
    simp only [inParts, counted]
    rcases run : part.attempts count first with ⟨⟨values, failure⟩, after⟩
    rw [run] at failed
    cases failed
    rfl
  refine ⟨?_, ends, fails, ?_, ?_⟩
  · intro source first error uncounted
    rw [inParts, uncounted]
  · intro source first count counted
    rw [ends source first count counted]
    exact keeps_attempts built costs count first
  · intro source first count counted short
    -- All parts would be more than there are bytes, so one of them failed.
    obtain ⟨-, taken, parts, few⟩ := keeps_attempts built costs count first
    rcases attempts_cases part count first with
      ⟨values, after, run, -, whole⟩ | ⟨values, between, error, after, run, -, -, -⟩
    · rw [parts, List.length_append] at short
      rw [run] at few
      change values.length ≤ taken.length at few
      omega
    · exact ⟨error, fails source first count error counted (by rw [run])⟩

end Decoder

namespace Codec

open Decoder

theorem read_seq_inParts (shape : SeqShape) {element : Ty} (codec : Codec element) :
    (Codec.seq shape codec).read = inParts codec.decode fun elements =>
      (shape.gather element elements).mapError fun mismatch => .elementCount mismatch.expected mismatch.found := by
  funext source
  rw [read, decode, read_bind, inParts]
  rcases Decoder.length.read source with ⟨error | count, first⟩
  · rfl
  · simp only [read_bind]
    simp only [Decoder.read, Decoder.replicate]
    rcases codec.decode.attempts count first with ⟨⟨elements, _ | error⟩, after⟩
    · simp only [gathered]
      cases shape.gather element elements <;> rfl
    · rfl

variable {k v : Ty}

theorem readInto_inParts (shape : MapShape) (key : Codec k) (value : Codec v) (target : List (k.Value × v.Value)) :
    (fun source => ((readInto shape key value target source).1.1, (readInto shape key value target source).2)) =
      inParts (entry key.decode value.decode) fun _ => .ok () := by
  funext source
  rw [readInto, entriesInto, inParts]
  rcases Decoder.length.read source with ⟨error | count, first⟩
  · rfl
  · simp only
    rcases (entry key.decode value.decode).attempts count first with ⟨⟨entries, _ | error⟩, after⟩ <;> rfl

theorem read_map_inParts (shape : MapShape) (key : Codec k) (value : Codec v) :
    (Codec.map shape key value).read = inParts (entry key.decode value.decode) fun entries =>
      .ok (shape.insertAll k [] entries) := by
  funext source
  rw [read_map, readInto, entriesInto, inParts]
  rcases Decoder.length.read source with ⟨error | count, first⟩
  · rfl
  · simp only
    rcases (entry key.decode value.decode).attempts count first with ⟨⟨entries, _ | error⟩, after⟩ <;> rfl

/-- A codec of units alone takes nothing from any source, whether it succeeds or fails, and every other codec takes at
least one byte for each value. So no list, set or array of a codec that takes bytes, and no map with such keys or such
values, is ahead of its input, on any stream and under any limits: it gets no more elements or entries whole than it
takes bytes behind the count, and fails if the count is above the number of bytes that are left. -/
theorem counts_keep_pace :
    (∀ {t : Ty} (codec : Codec t), codec.zeroWidth = true → ∀ source, (codec.read source).2 = source) ∧
    (∀ {t : Ty} (codec : Codec t), codec.zeroWidth = false → ∀ source v after, codec.read source = (.ok v, after) →
      source.offset < after.offset ∧
        ∃ taken, source.reader.held = taken ++ after.reader.held ∧ 1 ≤ taken.length) ∧
    (∀ (shape : SeqShape) {element : Ty} (codec : Codec element), codec.zeroWidth = false →
      Paced codec.decode (Codec.seq shape codec).read) ∧
    ∀ (shape : MapShape) {k v : Ty} (key : Codec k) (value : Codec v),
      key.zeroWidth = false ∨ value.zeroWidth = false →
        Paced (entry key.decode value.decode) (Codec.map shape key value).read ∧
          ∀ target, Paced (entry key.decode value.decode) fun source =>
            ((readInto shape key value target source).1.1, (readInto shape key value target source).2) := by
  have costly {t : Ty} {codec : Codec t} (wide : codec.zeroWidth = false) : Costs 1 codec.decode :=
    codec.costs_decode.mono (leastWidth_pos wide)
  refine ⟨fun codec narrow => still_decode narrow, ?_, ?_, ?_⟩
  · intro t codec wide source v after read
    have moved := costly wide _ _ _ read
    obtain ⟨taken, parts, covered⟩ := (codec.built_decode.onward_of_read read).exists_taken
    exact ⟨moved, taken, parts, by omega⟩
  · intro shape element codec wide
    rw [read_seq_inParts]
    exact paced_inParts codec.built_decode (costly wide) _
  · intro shape k v key value wide
    have built := key.built_decode.entry value.built_decode
    have costs : Costs 1 (entry key.decode value.decode) := by
      rcases wide with wide | wide
      · exact ((costly wide).entry value.built_decode.costs).mono (Nat.le_refl 1)
      · exact (key.built_decode.costs.entry (costly wide)).mono (Nat.le_refl 1)
    refine ⟨?_, fun target => ?_⟩
    · rw [read_map_inParts]
      exact paced_inParts built costs _
    · rw [readInto_inParts]
      exact paced_inParts built costs _

/-- Two bytes behind a count of 300: units take none of them, a flag takes one, no more than two flags come whole,
neither a list of flags nor a map of them is read, and reading flags into a map that is there fails. -/
theorem counts_keep_pace_flags :
    let source : Source := .ofBytes [0xAC, 0x02, 1, 0] .standard
    let first : Source := ⟨⟨[.chunk [1, 0]], .endOfInput, []⟩, 2, .standard⟩
    let last : Source := ⟨⟨[.chunk [0]], .endOfInput, []⟩, 3, .standard⟩
    Decoder.length.read source = (.ok 300, first) ∧
      ((Codec.pair .unit .unit).read first).2 = first ∧
      Codec.bool.read first = (.ok true, last) ∧ first.offset < last.offset ∧
      (Codec.bool.decode.attempts 300 first).1.1.length ≤ 2 ∧
      (∃ error, ((Codec.seq .vector .bool).read source).1 = .error error) ∧
      (∃ error, ((Codec.map .sorted .unit .bool).read source).1 = .error error) ∧
      ∃ error, (readInto .sorted .bool .unit [(true, ())] source).1.1 = .error error := by
  intro source first last
  have counted : Decoder.length.read source = (.ok 300, first) := rfl
  have two : first.reader.held.length = 2 := rfl
  have short : first.reader.held.length < 300 := by omega
  have flag : Codec.bool.read first = (.ok true, last) := rfl
  obtain ⟨nothing, something, lists, maps⟩ := counts_keep_pace
  have flags := lists .vector .bool rfl
  obtain ⟨keyed, -⟩ := maps .sorted .unit .bool (.inr rfl)
  obtain ⟨-, into⟩ := maps .sorted .bool .unit (.inl rfl)
  obtain ⟨-, taken, parts, few⟩ := flags.keeps _ _ _ counted
  have front : taken.length ≤ first.reader.held.length := by
    rw [parts, List.length_append]
    exact Nat.le_add_right _ _
  rw [two] at front
  exact ⟨counted, nothing _ rfl first, flag, (something .bool rfl _ _ _ flag).1, Nat.le_trans few front,
    flags.refuses _ _ _ counted short, keyed.refuses _ _ _ counted short,
    (into [(true, ())]).refuses _ _ _ counted short⟩

end Codec
end TypedWire
