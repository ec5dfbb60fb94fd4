import TypedWire.Proofs.Acceptance
import TypedWire.Proofs.Scanning

/-! Codecs without sets, maps, integers of any size and decimals read nothing but what they write, up to the
spelling of lengths. -/

namespace TypedWire.Codec

/-- The codecs of numbers with a fixed width, flags, text and bytes, and of optional values, tuples and lists of
these. -/
inductive Plain : {t : Ty} → Codec t → Prop
  | int (sign : Sign) (width : Width) : Plain (.int sign width)
  | float (precision : Precision) : Plain (.float precision)
  | bool : Plain .bool
  | unit : Plain .unit
  | text : Plain .text
  | bytes : Plain .bytes
  | char : Plain Codec.char
  | seq {shape : SeqShape} (listed : shape.order = .insertion) {element : Ty} {codec : Codec element}
      (plain : Plain codec) : Plain (.seq shape codec)
  | option {value : Ty} {codec : Codec value} (plain : Plain codec) : Plain (.option codec)
  | pair {first second : Ty} {firstCodec : Codec first} {secondCodec : Codec second} (plainFirst : Plain firstCodec)
      (plainSecond : Plain secondCodec) : Plain (.pair firstCodec secondCodec)
  | triple {first second third : Ty} {firstCodec : Codec first} {secondCodec : Codec second}
      {thirdCodec : Codec third} (plainFirst : Plain firstCodec) (plainSecond : Plain secondCodec)
      (plainThird : Plain thirdCodec) : Plain (.triple firstCodec secondCodec thirdCodec)

variable {t : Ty} {codec : Codec t}

theorem Plain.standard (plain : codec.Plain) : codec.Standard := by
  induction plain with
  | int sign width => exact .int sign width
  | float p => exact .float p
  | bool => exact .bool
  | unit => exact .unit
  | text => exact .text
  | bytes => exact .bytes
  | char => exact .char
  | seq listed _ ih => exact .seq _ (fun unlisted => absurd listed unlisted) ih
  | option _ ih => exact .option ih
  | pair _ _ iha ihb => exact .pair iha ihb
  | triple _ _ _ iha ihb ihc => exact .triple iha ihb ihc

theorem Plain.settle_eq (plain : codec.Plain) (v : t.Value) : t.settle v = v := by
  induction plain with
  | bytes => exact List.map_id' v
  | seq _ _ ih => exact (List.map_congr_left fun x _ => ih x).trans (List.map_id' v)
  | option _ ih =>
    cases v with
    | none => rfl
    | some x => exact congrArg some (ih x)
  | pair _ _ iha ihb => exact Prod.ext (iha v.1) (ihb v.2)
  | triple _ _ _ iha ihb ihc => exact Prod.ext (iha v.1) (Prod.ext (ihb v.2.1) (ihc v.2.2))
  | _ => rfl

theorem Plain.scalesFit (plain : codec.Plain) (v : t.Value) : t.ScalesFit v := by
  induction plain with
  | bytes => exact fun x member => trivial
  | seq listed _ ih => exact fun x member => ih x
  | option _ ih => exact fun x member => ih x
  | pair _ _ iha ihb => exact ⟨iha v.1, ihb v.2⟩
  | triple _ _ _ iha ihb ihc => exact ⟨iha v.1, ihb v.2.1, ihc v.2.2⟩
  | _ => trivial

open Decoder in
/-- What a plain codec takes for a value is a spelling of its frame. -/
theorem Plain.takes_spelling (plain : codec.Plain) (limits : DecodeLimits) :
    Takes limits codec.decode fun taken v => (codec.frame v).Spells taken := by
  induction plain with
  | int sign width => exact (takes_word width).imp fun taken v same => Frame.spells_data_iff.mpr same
  | float p => exact (takes_word p.width).imp fun taken v same => Frame.spells_data_iff.mpr same
  | bool => exact takes_flag.imp fun taken v same => Frame.spells_data_iff.mpr same
  | unit => exact takes_pure .nil
  | text => exact takes_text.imp fun taken v holds => holds.1
  | bytes => exact takes_payload.imp fun taken v holds => holds.1
  | char =>
    refine (takes_word .one).map fun taken byte same => ?_
    have framed : Codec.char.frame (byteToChar byte) = [.data (bigEndian 1 byte.toNat)] :=
      frame_of_mapped (charToByte_byteToChar byte)
    rw [framed]
    exact Frame.spells_data_iff.mpr same
  | seq listed _ ih =>
    refine (takes_gathered ih).imp ?_
    rintro taken container ⟨front, parts, elements, denotes, -, placed, rfl, gathers⟩
    cases SeqShape.eq_of_gather listed gathers
    exact .length denotes (Frame.spells_flatMap placed)
  | option _ ih =>
    refine takes_flag.bind fun front there same => ?_
    rw [same]
    cases there with
    | false => exact takes_pure (.data .nil)
    | true => exact (ih.labeled "value").map fun back x spells => .data spells
  | pair _ _ iha ihb =>
    refine (iha.labeled "first").bind fun front x one => (ihb.labeled "second").map fun back y two => ?_
    exact Frame.spells_append_iff.mpr ⟨front, back, rfl, one, two⟩
  | triple _ _ _ iha ihb ihc =>
    refine (iha.labeled "first").bind fun front x one => (ihb.labeled "second").bind fun middle y two => ?_
    refine (ihc.labeled "third").map fun back z three => ?_
    refine Frame.spells_append_iff.mpr ⟨front, middle ++ back, rfl, one, ?_⟩
    exact Frame.spells_append_iff.mpr ⟨middle, back, rfl, two, three⟩

/-- A plain codec that accepts a spelling of the frame of a value accepts it for that value. -/
theorem Plain.eq_of_spells (plain : codec.Plain) {bytes : List Byte} {u v : t.Value} (valid : t.Valid u)
    (encodes : ∃ normal, codec.toBytes u = .ok normal) (spells : (codec.frame u).Spells bytes)
    (accepts : codec.ofBytes bytes = .ok v) : v = u := by
  obtain ⟨after, read, -⟩ := ofBytes_eq_ok_iff.mp accepts
  have serves := Source.serves_ofBytes bytes .standard
  rw [← List.append_nil bytes] at serves
  have scans := plain.standard.scansFrames .standard valid (plain.scalesFit u) encodes
  rw [plain.settle_eq] at scans
  rw [← List.append_nil bytes] at read
  exact scans.eq_of_read spells serves read

/-- Two strings of bytes spell the frame of one value, so that they differ in nothing but how the lengths in it are
spelled. -/
def Respells (codec : Codec t) (a b : List Byte) : Prop :=
  ∃ u : t.Value, t.Valid u ∧ (∃ normal, codec.toBytes u = .ok normal) ∧
    (codec.frame u).Spells a ∧ (codec.frame u).Spells b

/-- What a plain codec accepts becomes the encoding of its value if every length in it is spelled as short as can
be. So the encoding is no longer, and as long only if it is the same. Two strings of bytes are accepted for one
value exactly if they differ in nothing but how lengths are spelled. -/
theorem accepted_up_to_lengths (plain : codec.Plain) :
    (∀ (bytes : List Byte) (v : t.Value), codec.ofBytes bytes = .ok v →
      ∃ normal, codec.toBytes v = .ok normal ∧ (codec.frame v).Spells bytes ∧ (codec.frame v).bytes = normal ∧
        normal.length ≤ bytes.length ∧ (normal.length = bytes.length → bytes = normal)) ∧
    ∀ (a b : List Byte) (v w : t.Value), codec.ofBytes a = .ok v → codec.ofBytes b = .ok w →
      (v = w ↔ codec.Respells a b) := by
  constructor
  · intro bytes v accepts
    have spells := (plain.takes_spelling .standard).accepts accepts
    obtain ⟨normal, encodes⟩ := ((plain.standard.takes_accepted .standard).accepts accepts).encodes (plain.scalesFit v)
    have framed := bytes_frame encodes
    refine ⟨normal, encodes, spells, framed, ?_, fun short => ?_⟩
    · rw [← framed]
      exact spells.length_le
    · rw [← framed] at short ⊢
      exact spells.eq_bytes short.symm
  · intro a b v w acceptsA acceptsB
    constructor
    · rintro rfl
      have spells := plain.takes_spelling .standard
      have accepted := (plain.standard.takes_accepted .standard).accepts acceptsA
      exact ⟨v, accepted.valid, accepted.encodes (plain.scalesFit v), spells.accepts acceptsA, spells.accepts acceptsB⟩
    · rintro ⟨u, valid, encodes, spellsA, spellsB⟩
      rw [plain.eq_of_spells valid encodes spellsA acceptsA, plain.eq_of_spells valid encodes spellsB acceptsB]

/-- A list of one string of bytes, with its count or the length of the string overlong. -/
theorem accepted_up_to_lengths_list :
    (∃ normal, (Codec.seq .vector .bytes).toBytes [[7, 8]] = .ok normal ∧
      ((Codec.seq .vector .bytes).frame [[7, 8]]).Spells [0x81, 0, 2, 7, 8] ∧
        ((Codec.seq .vector .bytes).frame [[7, 8]]).bytes = normal ∧ normal.length ≤ 5 ∧
          (normal.length = 5 → [0x81, 0, 2, 7, 8] = normal)) ∧
      (Codec.seq .vector .bytes).Respells [0x81, 0, 2, 7, 8] [1, 0x82, 0x80, 0, 7, 8] := by
  have plain : (Codec.seq .vector .bytes).Plain := .seq rfl .bytes
  have first : (Codec.seq .vector .bytes).ofBytes [0x81, 0, 2, 7, 8] = .ok [[7, 8]] := by decide +kernel
  have second : (Codec.seq .vector .bytes).ofBytes [1, 0x82, 0x80, 0, 7, 8] = .ok [[7, 8]] := by decide +kernel
  obtain ⟨normalises, same⟩ := accepted_up_to_lengths plain
  exact ⟨normalises _ _ first, (same _ _ _ _ first second).mp rfl⟩

end TypedWire.Codec
