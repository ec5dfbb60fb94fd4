import TypedWire.Proofs.Settling
import TypedWire.Proofs.Standard
import TypedWire.Proofs.Taking

/-! Standard codecs read far more than they write, but a value that has been read is valid, has an encoding,
and holds no more than the limit allows. -/

namespace TypedWire

/-- How many elements, entries or bytes the containers and texts in a value have. -/
def Ty.counts : (t : Ty) → t.Value → List Nat
  | .text, v => [(Utf8.encode v).length]
  | .seq _ t, v => v.length :: v.flatMap t.counts
  | .map _ k t, v => v.length :: v.flatMap fun entry => k.counts entry.1 ++ t.counts entry.2
  | .option t, v => v.elim [] t.counts
  | .pair s t, v => s.counts v.1 ++ t.counts v.2
  | .triple s t u, v => s.counts v.1 ++ (t.counts v.2.1 ++ u.counts v.2.2)
  | .newtype _ t, v => t.counts v
  | _, _ => []

namespace Codec

/-- What a value is that has been read under limits. -/
structure Accepted (limits : DecodeLimits) {t : Ty} (codec : Codec t) (v : t.Value) : Prop where
  valid : t.Valid v
  encodes : t.ScalesFit v → ∃ bytes, codec.toBytes v = .ok bytes
  counted : ∀ n ∈ t.counts v, n ≤ limits.maxLength.toNat
  /-- Even under a limit of zero, the empty numeral is read as a number whose numeral has one byte. -/
  announced : ∀ n ∈ codec.lengths v, n ≤ max 1 limits.maxLength.toNat

variable {limits : DecodeLimits} {t k v : Ty}

theorem accepted_of_uncounted {codec : Codec t} {v : t.Value} {bytes : List Byte} (valid : t.Valid v)
    (encodes : codec.toBytes v = .ok bytes) (uncounted : t.counts v = []) (unannounced : codec.lengths v = []) :
    Accepted limits codec v where
  valid := valid
  encodes _ := ⟨bytes, encodes⟩
  counted := by simp [uncounted]
  announced := by simp [unannounced]

theorem accepted_text {text : String} (within : (Utf8.encode text).length ≤ limits.maxLength.toNat) :
    Accepted limits .text text where
  valid := trivial
  encodes _ := ⟨_, toBytes_payload (Utf8.encode text)⟩
  counted n member := by
    rw [List.mem_singleton.mp member]
    exact within
  announced n member := by
    rw [List.mem_singleton.mp member]
    exact Nat.le_trans within (Nat.le_max_right ..)

theorem accepted_bytes {bytes : List Byte} (within : bytes.length ≤ limits.maxLength.toNat) :
    Accepted limits .bytes bytes where
  valid := ⟨trivial, fun _ _ => trivial⟩
  encodes _ := ⟨_, toBytes_payload bytes⟩
  counted n member := by
    rcases List.mem_cons.mp member with rfl | inside
    · exact within
    · obtain ⟨byte, -, nothing⟩ := List.mem_flatMap.mp inside
      cases nothing
  announced n member := by
    rw [List.mem_singleton.mp member]
    exact Nat.le_trans within (Nat.le_max_right ..)

theorem accepted_char (byte : Byte) : Accepted limits Codec.char (byteToChar byte) :=
  accepted_of_uncounted trivial
    (toBytes_derived_iff.mpr ⟨byte, charToByte_byteToChar byte, toBytes_int .unsigned .one byte⟩) rfl
    (lengths_of_mapped (charToByte_byteToChar byte))

theorem lengths_integer (n : Int) : Codec.integer.lengths n = [TwosComplement.width n] := by
  rw [← TwosComplement.length_encode n]
  rfl

theorem accepted_integer {n : Int} (within : TwosComplement.width n ≤ max 1 limits.maxLength.toNat) :
    Accepted limits Codec.integer n where
  valid := trivial
  encodes _ := ⟨_, toBytes_payload (TwosComplement.encode n)⟩
  counted n member := by cases member
  announced m member := by
    rw [lengths_integer, List.mem_singleton] at member
    rw [member]
    exact within

/-- The normal form of a decimal announces no more than the decimal as it was read. -/
theorem accepted_decimal {d : Decimal} (within : TwosComplement.width d.digits ≤ max 1 limits.maxLength.toNat) :
    Accepted limits Codec.decimal d where
  valid := trivial
  encodes fit := by
    obtain ⟨n, normal⟩ := Decimal.exists_normal fit
    exact ⟨_, toBytes_decimal_iff.mpr ⟨n, normal, toBytes_pair_iff.mpr
      ⟨_, _, toBytes_int .signed .eight _, toBytes_payload _, rfl⟩⟩⟩
  counted n member := by cases member
  announced n member := by
    cases normal : d.normal with
    | none =>
      rw [Codec.decimal, Codec.lengths, decimalParts, normal] at member
      cases member
    | some m =>
      rw [Codec.decimal, lengths_of_mapped (decimalParts_of_normal normal)] at member
      have only : n ∈ Codec.integer.lengths m.digits := member
      rw [lengths_integer, List.mem_singleton] at only
      rw [only, Decimal.digits_of_normal normal]
      exact Nat.le_trans (TwosComplement.width_mono d.reducedDigits_between) within

theorem accepted_none (codec : Codec t) : Accepted limits (.option codec) none :=
  accepted_of_uncounted (fun x member => by cases member) (toBytes_none codec) rfl rfl

theorem accepted_some {codec : Codec t} {x : t.Value} (accepted : codec.Accepted limits x) :
    Accepted limits (.option codec) (some x) where
  valid y member := by
    cases member
    exact accepted.valid
  encodes fit := by
    obtain ⟨bytes, encodes⟩ := accepted.encodes (fit x rfl)
    exact ⟨1 :: bytes, toBytes_some_iff.mpr ⟨bytes, encodes, rfl⟩⟩
  counted := accepted.counted
  announced := accepted.announced

theorem accepted_pair {first : Codec t} {second : Codec k} {x : t.Value} {y : k.Value}
    (one : first.Accepted limits x) (two : second.Accepted limits y) :
    Accepted limits (.pair first second) (x, y) where
  valid := ⟨one.valid, two.valid⟩
  encodes fit := by
    obtain ⟨front, fronts⟩ := one.encodes fit.1
    obtain ⟨back, backs⟩ := two.encodes fit.2
    exact ⟨front ++ back, toBytes_pair_iff.mpr ⟨front, back, fronts, backs, rfl⟩⟩
  counted := List.forall_mem_append.mpr ⟨one.counted, two.counted⟩
  announced := List.forall_mem_append.mpr ⟨one.announced, two.announced⟩

theorem accepted_triple {first : Codec t} {second : Codec k} {third : Codec v} {x : t.Value} {y : k.Value}
    {z : v.Value} (one : first.Accepted limits x) (two : second.Accepted limits y)
    (three : third.Accepted limits z) : Accepted limits (.triple first second third) (x, y, z) where
  valid := ⟨one.valid, two.valid, three.valid⟩
  encodes fit := by
    obtain ⟨front, fronts⟩ := one.encodes fit.1
    obtain ⟨middle, middles⟩ := two.encodes fit.2.1
    obtain ⟨back, backs⟩ := three.encodes fit.2.2
    exact ⟨_, toBytes_triple_iff.mpr ⟨front, middle, back, fronts, middles, backs, rfl⟩⟩
  counted := by
    refine List.forall_mem_append.mpr ⟨one.counted, ?_⟩
    exact List.forall_mem_append.mpr ⟨two.counted, three.counted⟩
  announced := by
    refine List.forall_mem_append.mpr ⟨one.announced, ?_⟩
    exact List.forall_mem_append.mpr ⟨two.announced, three.announced⟩

/-- What a container makes of elements that have been read. -/
theorem accepted_seq {shape : SeqShape} {codec : Codec t} (ordered : shape.order ≠ .insertion → t.Ordered)
    {elements container : List t.Value} (within : elements.length ≤ limits.maxLength.toNat)
    (each : ∀ x ∈ elements, codec.Accepted limits x) (gathers : shape.gather t elements = .ok container) :
    Accepted limits (.seq shape codec) container := by
  have few := Nat.le_trans (SeqShape.length_of_gather gathers) within
  have kept : ∀ x ∈ container, codec.Accepted limits x := fun x member =>
    each x (SeqShape.mem_of_gather gathers member)
  refine ⟨⟨SeqShape.holds_of_gather ordered gathers, fun x member => (kept x member).valid⟩, ?_, ?_, ?_⟩
  · intro fit
    obtain ⟨parts, image⟩ := exists_images fun x member => (kept x member).encodes (fit x member)
    exact ⟨_, toBytes_seq_iff.mpr ⟨parts, image, rfl⟩⟩
  · refine List.forall_mem_cons.mpr ⟨few, ?_⟩
    exact List.forall_mem_flatMap.mpr fun x member => (kept x member).counted
  · refine List.forall_mem_cons.mpr ⟨Nat.le_trans few (Nat.le_max_right ..), ?_⟩
    exact List.forall_mem_flatMap.mpr fun x member => (kept x member).announced

/-- What a map makes of entries that have been read. -/
theorem accepted_map {shape : MapShape} {keyCodec : Codec k} {valueCodec : Codec v} (ordered : k.Ordered)
    {entries : List (k.Value × v.Value)} (within : entries.length ≤ limits.maxLength.toNat)
    (each : ∀ entry ∈ entries, keyCodec.Accepted limits entry.1 ∧ valueCodec.Accepted limits entry.2) :
    Accepted limits (.map shape keyCodec valueCodec) (shape.insertAll k [] entries) := by
  have keys := shape.gather_keys entries
  have few : (shape.insertAll k [] entries).length ≤ limits.maxLength.toNat := by
    have fewer := SeqShape.length_of_gather keys
    rw [List.length_map, List.length_map] at fewer
    exact Nat.le_trans fewer within
  have holds := (shape.holds_iff_keys _).mpr (SeqShape.holds_of_gather (fun _ => ordered) keys)
  have kept : ∀ entry ∈ shape.insertAll k [] entries,
      keyCodec.Accepted limits entry.1 ∧ valueCodec.Accepted limits entry.2 := by
    intro entry member
    obtain ⟨p, there, key⟩ := List.mem_map.mp (SeqShape.mem_of_gather keys (List.mem_map_of_mem member))
    obtain ⟨q, there', value⟩ := MapShape.value_of_mem_insertAll member
    rw [← key, ← value]
    exact ⟨(each p there).1, (each q there').2⟩
  refine ⟨⟨holds, fun entry member => ⟨(kept entry member).1.valid, (kept entry member).2.valid⟩⟩, ?_, ?_, ?_⟩
  · intro fit
    have images : ∀ entry ∈ shape.insertAll k [] entries, ∃ part front back, keyCodec.toBytes entry.1 = .ok front ∧
        valueCodec.toBytes entry.2 = .ok back ∧ part = front ++ back := by
      intro entry member
      obtain ⟨front, first⟩ := (kept entry member).1.encodes (fit entry member).1
      obtain ⟨back, second⟩ := (kept entry member).2.encodes (fit entry member).2
      exact ⟨front ++ back, front, back, first, second, rfl⟩
    obtain ⟨parts, image⟩ := exists_images images
    exact ⟨_, toBytes_map_iff.mpr ⟨parts, image, rfl⟩⟩
  · refine List.forall_mem_cons.mpr ⟨few, List.forall_mem_flatMap.mpr fun entry member => ?_⟩
    obtain ⟨key, value⟩ := kept entry member
    exact List.forall_mem_append.mpr ⟨key.counted, value.counted⟩
  · refine List.forall_mem_cons.mpr ⟨Nat.le_trans few (Nat.le_max_right ..), ?_⟩
    refine List.forall_mem_flatMap.mpr fun entry member => ?_
    obtain ⟨key, value⟩ := kept entry member
    exact List.forall_mem_append.mpr ⟨key.announced, value.announced⟩

open Decoder in
theorem takes_integer :
    Takes limits Codec.integer.decode fun _ n => TwosComplement.width n ≤ max 1 limits.maxLength.toNat := by
  refine takes_payload.map ?_
  rintro taken bytes ⟨-, within⟩
  have short := TwosComplement.width_decode bytes
  omega

open Decoder in
/-- What a standard codec reads is valid, can be encoded if its scales fit, and is bounded by the limit. -/
theorem Standard.takes_accepted {codec : Codec t} (standard : codec.Standard) (limits : DecodeLimits) :
    Takes limits codec.decode fun _ v => codec.Accepted limits v := by
  induction standard with
  | int sign width =>
    exact (takes_word width).imp fun taken v _ => accepted_of_uncounted trivial (toBytes_int sign width v) rfl rfl
  | float p =>
    exact (takes_word p.width).imp fun taken v _ => accepted_of_uncounted trivial (toBytes_float p v) rfl rfl
  | bool => exact takes_flag.imp fun taken v _ => accepted_of_uncounted trivial (toBytes_bool v) rfl rfl
  | unit => exact takes_pure (accepted_of_uncounted trivial Emission.toBytes_done rfl rfl)
  | never => exact takes_throw _
  | text => exact takes_text.imp fun taken text holds => accepted_text holds.2
  | bytes => exact takes_payload.imp fun taken bytes holds => accepted_bytes holds.2
  | char => exact (takes_word .one).map fun taken byte _ => accepted_char byte
  | integer => exact takes_integer.imp fun taken n within => accepted_integer within
  | decimal =>
    refine Takes.bind (P := fun _ parts => TwosComplement.width parts.2 ≤ max 1 limits.maxLength.toNat) ?_ ?_
    · refine ((takes_word .eight).labeled "first").bind fun _ scale _ => ?_
      exact (takes_integer.labeled "second").map fun _ digits within => within
    · exact fun _ parts within => takes_pure (accepted_decimal within)
  | seq shape ordered _ ih =>
    refine (takes_gathered ih).imp ?_
    rintro taken container ⟨front, parts, elements, -, within, placed, -, gathers⟩
    refine accepted_seq ordered within (fun x member => ?_) gathers
    obtain ⟨part, -, accepted⟩ := exists_of_mem_images placed member
    exact accepted
  | @map shape key value keyCodec valueCodec ordered _ _ ihk ihv =>
    have entry : Takes limits (entry keyCodec.decode valueCodec.decode) fun _ entry =>
        keyCodec.Accepted limits entry.1 ∧ valueCodec.Accepted limits entry.2 := by
      refine (ihk.labeled "key").bind fun _ x key => ?_
      exact (ihv.labeled "value").map fun _ y value => ⟨key, value⟩
    refine (takes_entries entry).imp ?_
    rintro taken container ⟨front, parts, entries, -, within, placed, -, rfl⟩
    refine accepted_map ordered within fun entry member => ?_
    obtain ⟨part, -, accepted⟩ := exists_of_mem_images placed member
    exact accepted
  | option _ ih =>
    refine takes_flag.bind fun _ there _ => ?_
    cases there with
    | false => exact takes_pure (accepted_none _)
    | true => exact (ih.labeled "value").map fun _ x accepted => accepted_some accepted
  | pair _ _ iha ihb =>
    exact (iha.labeled "first").bind fun _ x one => (ihb.labeled "second").map fun _ y two => accepted_pair one two
  | triple _ _ _ iha ihb ihc =>
    refine (iha.labeled "first").bind fun _ x one => (ihb.labeled "second").bind fun _ y two => ?_
    exact (ihc.labeled "third").map fun _ z three => accepted_triple one two three

end Codec
end TypedWire
