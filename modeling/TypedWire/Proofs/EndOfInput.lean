import TypedWire.Proofs.BrokenSource

/-! A stream may end by delivering nothing more, or by a failure that says so. Both are told as an early end
of the input, except that a payload tells the failure as one of the stream. -/

namespace TypedWire

/-! ### What a cut read tells -/

namespace Plan

variable {α : Type} {plan : Plan α} {limits : DecodeLimits} {place : Nat} {bytes : List Byte}

/-- Whether a read is cut depends on the bytes alone. -/
theorem settles_or_starved_of_cut (plan : Plan α) (limits : DecodeLimits) (place : Nat) (bytes : List Byte) :
    (plan.cut limits place bytes = none ∧
      ∃ taken rest result, bytes = taken ++ rest ∧ plan.Settles limits place taken result) ∨
      plan.cut limits place bytes ≠ none ∧
        Starved (place + bytes.length) (plan.outcome limits place bytes).result := by
  have breaks : (Source.mk (.ofBytes bytes) place limits).Breaks limits place bytes .endOfInput :=
    ⟨Reader.breaks_ofBytes bytes, rfl, rfl⟩
  rcases plan.settles_or_cut breaks with
    ⟨uncut, taken, rest, result, -, split, settles, -⟩ | ⟨cut, found, -, starved, -⟩
  · exact .inl ⟨uncut, taken, rest, result, split, settles⟩
  · exact .inr ⟨by simp [found], starved⟩

end Plan

namespace Cut

variable (cut : Cut)

/-- Where the stream delivers nothing more, every read tells the end of the input. -/
theorem error_endOfInput : ∃ place, (cut.error .endOfInput).root = .unexpectedEof place := by
  rw [cut.root_error]
  cases cut.kind with
  | exactly => exact ⟨_, rfl⟩
  | block => exact ⟨_, rfl⟩

/-- Where the stream fails because its input ends, a read of fixed width tells that. -/
theorem error_exactly {failure : IoFailure} (ends : failure.kind = .unexpectedEof) (fixed : cut.kind = .exactly) :
    (cut.error (.failed failure)).root = .unexpectedEof cut.place := by
  rw [cut.root_error, fixed]
  exact if_pos ends

/-- The read of a payload tells every failure as one of the stream. -/
theorem error_block (failure : IoFailure) (payload : cut.kind = .block) :
    (cut.error (.failed failure)).root = .io cut.place failure := by
  rw [cut.root_error, payload]
  rfl

end Cut

/-! ### Codecs without payloads -/

namespace Decoder

variable {α β : Type}

/-- What the decoder tells as a failure of the stream is not that its input ended, whatever the stream does. -/
def Candid (decoder : Decoder α) : Prop :=
  ∀ (source after : Source) (error : DecodeError) (offset : Nat) (failure : IoFailure),
    decoder.read source = (.error error, after) → error.root = .io offset failure → failure.kind ≠ .unexpectedEof

theorem candid_pure (value : α) : Candid (pure value) := fun _ _ _ _ _ read => nomatch read

theorem candid_throw {error : DecodeError} (other : ∀ offset failure, error.root ≠ .io offset failure) :
    Candid (throw error : Decoder α) := by
  intro source after error' offset failure read root
  cases read
  exact absurd root (other offset failure)

theorem Candid.bind {first : Decoder α} {second : α → Decoder β} (one : Candid first)
    (two : ∀ value, Candid (second value)) : Candid (first >>= second) := by
  intro source after error offset failure read root
  rcases error_of_read_bind read with failed | ⟨value, between, -, failed⟩
  · exact one _ _ _ _ _ failed root
  · exact two value _ _ _ _ _ failed root

theorem Candid.labeled {decoder : Decoder α} (label : String) (candid : Candid decoder) :
    Candid (decoder.labeled label) := by
  intro source after error offset failure read root
  obtain ⟨cause, failed, rfl⟩ := error_of_read_labeled read
  exact candid _ _ _ _ _ failed root

theorem Candid.ite {condition : Prop} [Decidable condition] {yes no : Decoder α} (one : Candid yes)
    (other : Candid no) : Candid (if condition then yes else no) := by
  by_cases holds : condition
  · rwa [if_pos holds]
  · rwa [if_neg holds]

theorem candid_offset : Candid offset := fun _ _ _ _ _ read => nomatch read

theorem candid_limits : Candid limits := fun _ _ _ _ _ read => nomatch read

theorem candid_exactly (count : Nat) : Candid (exactly count) := by
  intro source after error offset failure read root ends
  simp only [Decoder.read, exactly] at read
  rcases pulled : source.reader.pull count with ⟨⟨bytes, _ | _ | failure'⟩, reader⟩
  · rw [pulled] at read
    cases read
  · rw [pulled] at read
    cases read
    cases root
  · rw [pulled] at read
    by_cases early : failure'.kind = .unexpectedEof
    · simp only [if_pos early] at read
      cases read
      cases root
    · simp only [if_neg early] at read
      cases read
      cases root
      exact early ends

theorem candid_word (w : Width) : Candid (word w) := (candid_exactly w.bytes).bind fun _ => candid_pure _

theorem candid_byte : Candid byte := candid_word .one

theorem candid_flag : Candid flag := by
  refine candid_offset.bind fun start => candid_byte.bind fun byte => ?_
  exact (candid_pure _).ite ((candid_pure _).ite (candid_throw nofun))

theorem candid_varintFrom (start more : Nat) (seen : List Byte) : Candid (varintFrom start more seen) := by
  induction more generalizing seen with
  | zero => exact candid_throw nofun
  | succ more ih =>
    refine candid_byte.bind fun byte => Candid.ite ?_ (ih _)
    split
    · exact candid_pure _
    · exact candid_throw nofun

theorem candid_varint : Candid varint := candid_offset.bind fun start => candid_varintFrom start _ _

theorem candid_length : Candid length := by
  refine candid_offset.bind fun start => candid_varint.bind fun value => candid_limits.bind fun limits => ?_
  exact (candid_pure _).ite (candid_throw nofun)

theorem candid_compact : Candid compact := by
  refine candid_varint.bind fun value => ?_
  exact (candid_pure _).ite (candid_throw nofun)

theorem candid_mapped (result : Except String α) : Candid (mapped result) := by
  cases result with
  | ok value => exact candid_pure value
  | error text => exact candid_throw nofun

theorem candid_gathered (shape : SeqShape) (t : Ty) (elements : List t.Value) :
    Candid (gathered shape t elements) := by
  unfold gathered
  split
  · exact candid_pure _
  · exact candid_throw nofun

theorem Candid.replicate {decoder : Decoder α} (candid : Candid decoder) (count : Nat) :
    Candid (replicate count decoder) := by
  induction count with
  | zero => exact candid_pure []
  | succ count ih =>
    rw [replicate_succ]
    exact candid.bind fun value => ih.bind fun values => candid_pure _

theorem Candid.entry {key : Decoder α} {value : Decoder β} (one : Candid key) (two : Candid value) :
    Candid (entry key value) :=
  (one.labeled "key").bind fun _ => (two.labeled "value").bind fun _ => candid_pure _

theorem Candid.entries {shape : MapShape} {k : Ty} {entry : Decoder (k.Value × β)} (candid : Candid entry) :
    Candid (entries shape k entry) := by
  rw [entries_eq]
  exact candid_length.bind fun count => (candid.replicate count).bind fun entries => candid_pure _

end Decoder

/-- There is neither text nor a string of raw bytes anywhere in the codec. -/
def Codec.PayloadFree : {t : Ty} → Codec t → Prop
  | _, .text => False
  | _, .bytes => False
  | _, .derived _ codec _ _ => codec.PayloadFree
  | _, .terse _ _ codec => codec.PayloadFree
  | _, .seq _ codec => codec.PayloadFree
  | _, .map _ k v => k.PayloadFree ∧ v.PayloadFree
  | _, .option codec => codec.PayloadFree
  | _, .pair a b => a.PayloadFree ∧ b.PayloadFree
  | _, .triple a b c => a.PayloadFree ∧ b.PayloadFree ∧ c.PayloadFree
  | _, _ => True

open Decoder in
theorem Codec.candid_decode {t : Ty} {codec : Codec t} (free : codec.PayloadFree) : Candid codec.decode := by
  induction codec with
  | int sign width => exact candid_word width
  | float p => exact candid_word p.width
  | bool => exact candid_flag
  | unit => exact candid_pure ()
  | never => exact candid_throw nofun
  | text => exact free.elim
  | bytes => exact free.elim
  | compact name objection => exact candid_compact
  | derived name codec toBase fromBase ih => exact (ih free).bind fun base => candid_mapped _
  | terse name objection codec ih => exact ih free
  | seq shape codec ih =>
    exact candid_length.bind fun count => ((ih free).replicate count).bind fun elements => candid_gathered _ _ _
  | map shape key value ihk ihv => exact Candid.entries ((ihk free.1).entry (ihv free.2))
  | option codec ih =>
    refine candid_flag.bind fun there => ?_
    cases there with
    | false => exact candid_pure none
    | true => exact ((ih free).labeled "value").bind fun inner => candid_pure _
  | pair a b iha ihb =>
    exact ((iha free.1).labeled "first").bind fun x => ((ihb free.2).labeled "second").bind fun y => candid_pure _
  | triple a b c iha ihb ihc =>
    exact ((iha free.1).labeled "first").bind fun x => ((ihb free.2.1).labeled "second").bind fun y =>
      ((ihc free.2.2).labeled "third").bind fun z => candid_pure _

/-! ### Wherever the input ends -/

namespace Codec

variable {t : Ty} {limits : DecodeLimits} {bytes : List Byte}

/-- A read is cut behind the first `count` bytes exactly if decoding takes more of them or they are too few anyway. -/
theorem cut_iff_needed {codec : Codec t} {plan : Plan t.Value} (follows : plan.run = codec.decode)
    {result : Except DecodeError t.Value} {after : Source}
    (whole : codec.read (.ofBytes bytes limits) = (result, after)) (count : Nat) :
    plan.cut limits 0 (bytes.take count) ≠ none ↔
      EndsEarly result ∨ count + after.reader.held.length < bytes.length := by
  obtain ⟨after', read, serves⟩ := plan.read_run (Source.serves_ofBytes bytes limits)
  rw [follows] at read
  obtain ⟨rfl, rfl⟩ : result = _ ∧ after = after' := Prod.mk.inj (whole.symm.trans read)
  rcases plan.settles_or_starved_of_cut limits 0 (bytes.take count) with
    ⟨uncut, taken, rest, result, split, settles⟩ | ⟨cut, starved⟩
  · have outcome := settles.outcome_of_take split
    rw [outcome] at serves ⊢
    refine ⟨fun found => absurd uncut found, ?_⟩
    rintro (early | beyond)
    · exact absurd early (not_endsEarly_of_settles follows settles)
    · have parts := congrArg List.length split
      rw [List.length_take, List.length_append] at parts
      rw [serves.holds, List.length_append, List.length_drop] at beyond
      omega
  · refine ⟨fun _ => ?_, fun _ => cut⟩
    by_cases early : EndsEarly (plan.outcome limits 0 bytes).result
    · exact .inl early
    · rw [serves.holds]
      exact .inr (Plan.lt_of_starved_take starved early)

/-- A cut read fails with what it makes of the refusal. -/
theorem read_of_cut {codec : Codec t} {plan : Plan t.Value} (follows : plan.run = codec.decode) {cut : Cut}
    (found : plan.cut limits 0 bytes = some cut) {reader : Reader} {refusal : ReadRefusal}
    (breaks : reader.Breaks bytes refusal) :
    (codec.read (.ofReader reader limits)).1 = .error (cut.error refusal) := by
  have breaks' : (Source.ofReader reader limits).Breaks limits 0 bytes refusal := ⟨breaks, rfl, rfl⟩
  rcases plan.settles_or_cut breaks' with ⟨uncut, -⟩ | ⟨cut', found', -, -, final, read⟩
  · cases uncut.symm.trans found
  · cases found.symm.trans found'
    rw [Codec.read, ← follows, read]

/-- Where no read is cut, the refusal is not met. -/
theorem read_of_uncut {codec : Codec t} {plan : Plan t.Value} (follows : plan.run = codec.decode)
    {result : Except DecodeError t.Value} {after : Source}
    (whole : codec.read (.ofBytes bytes limits) = (result, after)) {count : Nat}
    (uncut : plan.cut limits 0 (bytes.take count) = none) {reader : Reader} {refusal : ReadRefusal}
    (breaks : reader.Breaks (bytes.take count) refusal) : (codec.read (.ofReader reader limits)).1 = result := by
  have breaks' : (Source.ofReader reader limits).Breaks limits 0 (bytes.take count) refusal := ⟨breaks, rfl, rfl⟩
  rcases plan.settles_or_cut breaks' with
    ⟨-, taken, rest, result', final, split, settles, read, -⟩ | ⟨cut, found, -⟩
  · obtain ⟨after', read', -⟩ := plan.read_run (Source.serves_ofBytes bytes limits)
    rw [settles.outcome_of_take split, follows] at read'
    rw [Codec.read, ← follows, read]
    exact congrArg Prod.fst (read'.symm.trans whole)
  · cases uncut.symm.trans found

/-- Without payloads only reads of fixed width are cut: the read of a payload would tell the end as a failure. -/
theorem exactly_of_payloadFree {codec : Codec t} {plan : Plan t.Value} (follows : plan.run = codec.decode)
    (free : codec.PayloadFree) {cut : Cut} (found : plan.cut limits 0 bytes = some cut) : cut.kind = .exactly := by
  cases kind : cut.kind with
  | exactly => rfl
  | block =>
    let ended : IoFailure := ⟨.unexpectedEof, ""⟩
    let reader : Reader := ⟨[.chunk bytes], .failed ended, []⟩
    have breaks : reader.Breaks bytes (.failed ended) := ⟨List.append_nil _, rfl⟩
    have told := read_of_cut follows found breaks
    exact absurd rfl (candid_decode free _ _ _ _ _ (Prod.ext told rfl) (cut.error_block ended kind))

/-- How the end of the input is told, for every codec, wherever it comes. Decoding needs bytes behind the first `count`
exactly if one of its reads is cut there; otherwise the end is not met. A stream that then delivers nothing more is told
as an early end of the input. So is one that fails because its input ends, if the read that is cut is one of fixed
width, and such are those of lengths too; the read of a payload tells that failure like any other. Only texts and raw
bytes have payloads. -/
theorem end_of_input_told (codec : Codec t) {plan : Plan t.Value} (follows : plan.run = codec.decode)
    {result : Except DecodeError t.Value} {after : Source}
    (whole : codec.read (.ofBytes bytes limits) = (result, after)) (count : Nat) :
    (plan.cut limits 0 (bytes.take count) ≠ none ↔
      EndsEarly result ∨ count + after.reader.held.length < bytes.length) ∧
    (plan.cut limits 0 (bytes.take count) = none →
      ∀ (reader : Reader) (refusal : ReadRefusal), reader.Breaks (bytes.take count) refusal →
        (codec.read (.ofReader reader limits)).1 = result) ∧
    ∀ cut, plan.cut limits 0 (bytes.take count) = some cut →
      (codec.PayloadFree → cut.kind = .exactly) ∧
      (∀ reader : Reader, reader.Breaks (bytes.take count) .endOfInput →
        EndsEarly (codec.read (.ofReader reader limits)).1) ∧
      ∀ (reader : Reader) (failure : IoFailure), failure.kind = .unexpectedEof →
        reader.Breaks (bytes.take count) (.failed failure) →
        (cut.kind = .exactly → EndsEarly (codec.read (.ofReader reader limits)).1) ∧
        (cut.kind = .block → ∃ error, (codec.read (.ofReader reader limits)).1 = .error error ∧
          error.root = .io cut.place failure) := by
  refine ⟨cut_iff_needed follows whole count, ?_, fun cut found => ⟨?_, ?_, ?_⟩⟩
  · intro uncut reader refusal breaks
    exact read_of_uncut follows whole uncut breaks
  · intro free
    exact exactly_of_payloadFree follows free found
  · intro reader breaks
    obtain ⟨place, root⟩ := cut.error_endOfInput
    exact ⟨_, place, read_of_cut follows found breaks, root⟩
  · intro reader failure ends breaks
    have told := read_of_cut follows found breaks
    exact ⟨fun fixed => ⟨_, _, told, cut.error_exactly ends fixed⟩,
      fun payload => ⟨_, told, cut.error_block failure payload⟩⟩

/-- A flag and a text of two bytes, from a stream that fails at the second of these because its input ends; and a flag
that announces another one, from a stream that does so at that. -/
theorem end_of_input_told_text :
    let ended : IoFailure := ⟨.unexpectedEof, "end"⟩
    let note := Codec.pair .bool .text
    let flags := Codec.option .bool
    (∃ (plan : Plan _) (cut : Cut) (error : DecodeError), plan.run = note.decode ∧
        plan.cut .standard 0 [1, 2, 0x61] = some cut ∧ cut.kind = .block ∧
        (note.read (.ofReader ⟨[.chunk [1, 2, 0x61]], .failed ended, []⟩ .standard)).1 = .error error ∧
        error.root = .io cut.place ended) ∧
      ∃ (plan : Plan _) (cut : Cut), plan.run = flags.decode ∧ plan.cut .standard 0 [1] = some cut ∧
        flags.PayloadFree ∧ EndsEarly (flags.read (.ofReader ⟨[.chunk [1]], .failed ended, []⟩ .standard)).1 := by
  intro ended note flags
  constructor
  · obtain ⟨plan, follows⟩ := note.planned_decode
    have whole : note.read (.ofBytes [1, 2, 0x61, 0x62] .standard) =
        (.ok (true, "ab"), ⟨⟨[], .endOfInput, []⟩, 4, .standard⟩) := rfl
    obtain ⟨needed, -, told⟩ := end_of_input_told note follows whole 3
    obtain ⟨cut, found⟩ := Option.ne_none_iff_exists'.mp (needed.mpr (.inr (by decide)))
    obtain ⟨-, -, fails⟩ := told cut found
    obtain ⟨fixed, payload⟩ := fails ⟨[.chunk [1, 2, 0x61]], .failed ended, []⟩ ended rfl ⟨rfl, rfl⟩
    have read : (note.read (.ofReader ⟨[.chunk [1, 2, 0x61]], .failed ended, []⟩ .standard)).1 =
        .error (.component "second" (.io 2 ended)) := rfl
    cases kind : cut.kind with
    | exactly =>
      obtain ⟨error, place, failed, root⟩ := fixed kind
      cases read.symm.trans failed
      cases root
    | block =>
      obtain ⟨error, failed, root⟩ := payload kind
      exact ⟨plan, cut, error, follows, found, kind, failed, root⟩
  · obtain ⟨plan, follows⟩ := flags.planned_decode
    have whole : flags.read (.ofBytes [1, 1] .standard) =
        (.ok (some true), ⟨⟨[], .endOfInput, []⟩, 2, .standard⟩) := rfl
    obtain ⟨needed, -, told⟩ := end_of_input_told flags follows whole 1
    obtain ⟨cut, found⟩ := Option.ne_none_iff_exists'.mp (needed.mpr (.inr (by decide)))
    obtain ⟨free, -, fails⟩ := told cut found
    obtain ⟨fixed, -⟩ := fails ⟨[.chunk [1]], .failed ended, []⟩ ended rfl ⟨rfl, rfl⟩
    exact ⟨plan, cut, follows, found, trivial, fixed (free trivial)⟩

/-- The input ends behind the length of a text of one byte. If the stream fails because of that, the text tells a
failure of the stream; if it delivers nothing more, an early end of the input; and so does a number of two bytes in
either case. -/
theorem payload_end_untold :
    let failing : Source := .ofReader ⟨[.chunk [1]], .failed ⟨.unexpectedEof, "end"⟩, []⟩ .standard
    let silent : Source := .ofReader ⟨[.chunk [1]], .endOfInput, []⟩ .standard
    let word := Codec.int .unsigned .two
    (∃ after, Codec.text.read (.ofBytes [1, 0x61] .standard) = (.ok "a", after) ∧ after.offset = 2) ∧
      (Codec.text.read failing).1 = .error (.io 1 ⟨.unexpectedEof, "end"⟩) ∧
      ¬EndsEarly (Codec.text.read failing).1 ∧ EndsEarly (Codec.text.read silent).1 ∧
      EndsEarly (word.read failing).1 ∧ EndsEarly (word.read silent).1 := by
  intro failing silent word
  have told : (Codec.text.read failing).1 = .error (.io 1 ⟨.unexpectedEof, "end"⟩) := rfl
  refine ⟨⟨_, rfl, rfl⟩, told, ?_, ⟨_, 1, rfl, rfl⟩, ⟨_, 0, rfl, rfl⟩, ⟨_, 0, rfl, rfl⟩⟩
  rintro ⟨error, place, failed, root⟩
  cases told.symm.trans failed
  cases root

end Codec
end TypedWire
