import TypedWire.Proofs.DecoderLaws

/-! Every decoder of a codec comes from the two reads that reach the stream, the offset of the source and
the check of a length against its limit, by sequencing and by labels. What holds of these and is kept by
sequencing and labels holds of every codec. -/

namespace TypedWire

namespace Decoder

variable {α β : Type}

/-- Checks a length that was read at `start` against the limit. -/
def bounded (start value : Nat) : Decoder Nat := do
  let limit := (← limits).maxLength.toNat
  if value ≤ limit then return value else throw (.lengthLimit start value limit)

theorem read_bounded (start value : Nat) (source : Source) :
    (bounded start value).read source = if value ≤ source.limits.maxLength.toNat then (.ok value, source)
      else (.error (.lengthLimit start value source.limits.maxLength.toNat), source) := by
  rw [bounded, read_bind, read_limits]
  by_cases within : value ≤ source.limits.maxLength.toNat
  · simp [within]
  · simp [within]

/-- The decoder is put together from reads, checks of lengths, sequencing and labels. -/
inductive Built : {α : Type} → Decoder α → Prop
  | pure {α : Type} (value : α) : Built (pure value)
  | throw {α : Type} (error : DecodeError) : Built (throw error : Decoder α)
  | offset : Built offset
  | bounded (start value : Nat) : Built (bounded start value)
  | exactly (count : Nat) : Built (exactly count)
  | block (count : Nat) : Built (block count)
  | bind {α β : Type} {first : Decoder α} {second : α → Decoder β} (one : Built first)
      (two : ∀ value, Built (second value)) : Built (first >>= second)
  | labeled {α : Type} {decoder : Decoder α} (label : String) (built : Built decoder) :
      Built (decoder.labeled label)

theorem Built.ite {condition : Prop} [Decidable condition] {yes no : Decoder α} (one : Built yes)
    (other : Built no) : Built (if condition then yes else no) := by
  by_cases holds : condition
  · rwa [if_pos holds]
  · rwa [if_neg holds]

theorem built_word (w : Width) : Built (word w) := (Built.exactly w.bytes).bind fun _ => .pure _

theorem built_byte : Built byte := built_word .one

theorem built_flag : Built flag := by
  refine Built.offset.bind fun start => built_byte.bind fun byte => ?_
  exact (Built.pure false).ite ((Built.pure true).ite (.throw _))

theorem built_varintFrom (start more : Nat) (seen : List Byte) : Built (varintFrom start more seen) := by
  induction more generalizing seen with
  | zero => exact .throw _
  | succ more ih =>
    refine built_byte.bind fun byte => Built.ite ?_ (ih _)
    split
    · exact .pure _
    · exact .throw _

theorem built_varint : Built varint := Built.offset.bind fun start => built_varintFrom start _ _

theorem built_length : Built length :=
  Built.offset.bind fun start => built_varint.bind fun value => .bounded start value

theorem built_mapped (result : Except String α) : Built (mapped result) := by
  cases result
  · exact .throw _
  · exact .pure _

theorem built_text : Built text := by
  refine built_length.bind fun count => Built.offset.bind fun start => (Built.block count).bind fun bytes => ?_
  split
  · exact .pure _
  · exact .throw _

theorem built_compact : Built compact := by
  refine built_varint.bind fun value => ?_
  exact (Built.pure _).ite (.throw _)

theorem built_gathered (shape : SeqShape) (t : Ty) (elements : List t.Value) :
    Built (gathered shape t elements) := by
  unfold gathered
  split
  · exact .pure _
  · exact .throw _

theorem Built.replicate {decoder : Decoder α} (built : Built decoder) (count : Nat) :
    Built (replicate count decoder) := by
  induction count with
  | zero => exact .pure []
  | succ count ih =>
    rw [replicate_succ]
    exact built.bind fun value => ih.bind fun values => .pure _

theorem Built.entry {key : Decoder α} {value : Decoder β} (one : Built key) (two : Built value) :
    Built (entry key value) :=
  (one.labeled "key").bind fun _ => (two.labeled "value").bind fun _ => .pure _

theorem Built.entries {shape : MapShape} {k : Ty} {entry : Decoder (k.Value × β)} (built : Built entry) :
    Built (entries shape k entry) := by
  rw [entries_eq]
  exact built_length.bind fun count => (built.replicate count).bind fun entries => .pure _

end Decoder

open Decoder in
/-- The decoder of every codec is put together so. -/
theorem Codec.built_decode {t : Ty} (codec : Codec t) : Built codec.decode := by
  induction codec with
  | int sign width => exact built_word width
  | float p => exact built_word p.width
  | bool => exact built_flag
  | unit => exact .pure ()
  | never => exact .throw _
  | text => exact built_text
  | bytes => exact built_length.bind fun count => .block count
  | compact name objection => exact built_compact
  | derived name codec toBase fromBase ih => exact ih.bind fun base => built_mapped _
  | terse name objection codec ih => exact ih
  | seq shape codec ih =>
    exact built_length.bind fun count => (ih.replicate count).bind fun elements => built_gathered _ _ _
  | map shape keyCodec valueCodec ihk ihv =>
    exact Built.entries (ihk.entry ihv)
  | option codec ih =>
    refine built_flag.bind fun there => ?_
    cases there with
    | false => exact .pure none
    | true => exact (ih.labeled "value").bind fun inner => .pure _
  | pair first second iha ihb =>
    exact (iha.labeled "first").bind fun x => (ihb.labeled "second").bind fun y => .pure _
  | triple first second third iha ihb ihc =>
    exact (iha.labeled "first").bind fun x => (ihb.labeled "second").bind fun y =>
      (ihc.labeled "third").bind fun z => .pure _

end TypedWire
