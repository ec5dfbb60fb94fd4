import TypedWire.DecodeLimits
import TypedWire.Proofs.Encoding
import TypedWire.Proofs.LengthPrefix

/-! A frame is the counts and lengths that an encoding announces, and the data between them. Data is written
in one way, a length in many, of which encoding takes the shortest. -/

namespace TypedWire

/-- A part of an encoding. -/
inductive Part where
  | length (n : Nat)
  | data (bytes : List Byte)
deriving DecidableEq, Repr

/-- The shortest spelling of a part. -/
def Part.bytes : Part → List Byte
  | .length n => Varint.encode n
  | .data bytes => bytes

abbrev Frame := List Part

namespace Frame

/-- The shortest spelling of a frame. -/
def bytes (frame : Frame) : List Byte := frame.flatMap Part.bytes

/-- The bytes are the parts of the frame, one behind the other, with each length in some spelling. -/
inductive Spells : Frame → List Byte → Prop
  | nil : Spells [] []
  | length {n : Nat} {front back : List Byte} {parts : Frame} (denotes : Varint.Denotes front n)
      (others : Spells parts back) : Spells (.length n :: parts) (front ++ back)
  | data {front back : List Byte} {parts : Frame} (others : Spells parts back) :
      Spells (.data front :: parts) (front ++ back)

theorem bytes_cons (part : Part) (frame : Frame) : bytes (part :: frame) = part.bytes ++ bytes frame :=
  List.flatMap_cons

theorem bytes_append (front back : Frame) : bytes (front ++ back) = bytes front ++ bytes back :=
  List.flatMap_append

theorem bytes_flatMap {α : Type} {walk : α → Frame} {elements : List α} {parts : List (List Byte)}
    (placed : List.Forall₂ (fun x part => (walk x).bytes = part) elements parts) :
    bytes (elements.flatMap walk) = parts.flatten := by
  induction placed with
  | nil => rfl
  | cons first _ ih => rw [List.flatMap_cons, bytes_append, first, ih, List.flatten_cons]

theorem spells_append_iff {front back : Frame} {bytes : List Byte} :
    Spells (front ++ back) bytes ↔
      ∃ first second, bytes = first ++ second ∧ Spells front first ∧ Spells back second := by
  constructor
  · intro spells
    induction front generalizing bytes with
    | nil => exact ⟨[], bytes, rfl, .nil, spells⟩
    | cons part front ih =>
      cases spells with
      | length denotes others =>
        obtain ⟨first, second, rfl, spells, spells'⟩ := ih others
        exact ⟨_, second, (List.append_assoc ..).symm, .length denotes spells, spells'⟩
      | data others =>
        obtain ⟨first, second, rfl, spells, spells'⟩ := ih others
        exact ⟨_, second, (List.append_assoc ..).symm, .data spells, spells'⟩
  · rintro ⟨first, second, rfl, spells, spells'⟩
    induction spells with
    | nil => exact spells'
    | length denotes _ ih =>
      rw [List.append_assoc]
      exact .length denotes ih
    | data _ ih =>
      rw [List.append_assoc]
      exact .data ih

theorem spells_data (bytes : List Byte) : Spells [.data bytes] bytes := by
  have alone : Spells [.data bytes] (bytes ++ []) := .data .nil
  rwa [List.append_nil] at alone

theorem spells_data_iff {bytes spelled : List Byte} : Spells [.data bytes] spelled ↔ spelled = bytes := by
  constructor
  · rintro (_ | _ | ⟨⟨⟩⟩)
    rw [List.append_nil]
  · rintro rfl
    exact spells_data spelled

theorem spells_flatMap {α : Type} {walk : α → Frame} {elements : List α} {parts : List (List Byte)}
    (placed : List.Forall₂ (fun part x => (walk x).Spells part) parts elements) :
    Spells (elements.flatMap walk) parts.flatten := by
  induction placed with
  | nil => exact .nil
  | cons first _ ih => exact spells_append_iff.mpr ⟨_, _, rfl, first, ih⟩

/-- Where every length has 64 bits, the shortest spelling is one. -/
theorem spells_bytes {frame : Frame} (bounds : ∀ n, .length n ∈ frame → n < 2 ^ 64) : Spells frame frame.bytes := by
  induction frame with
  | nil => exact .nil
  | cons part frame ih =>
    have others := ih fun n member => bounds n (List.mem_cons_of_mem _ member)
    cases part with
    | length n => exact .length (Varint.denotes_encode (bounds n (by simp))) others
    | data bytes => exact .data others

/-- No spelling is shorter than the shortest one. -/
theorem Spells.length_le {frame : Frame} {bytes : List Byte} (spells : Spells frame bytes) :
    frame.bytes.length ≤ bytes.length := by
  induction spells with
  | nil => exact Nat.le_refl 0
  | length denotes _ ih =>
    have short := denotes.length_le
    simp only [bytes_cons, List.length_append, Part.bytes]
    omega
  | data _ ih =>
    simp only [bytes_cons, List.length_append, Part.bytes]
    omega

/-- A spelling as short as the shortest one is that. -/
theorem Spells.eq_bytes {frame : Frame} {bytes : List Byte} (spells : Spells frame bytes)
    (short : bytes.length = frame.bytes.length) : bytes = frame.bytes := by
  induction spells with
  | nil => rfl
  | @length n front back parts denotes others ih =>
    have first := denotes.length_le
    have second := others.length_le
    simp only [bytes_cons, List.length_append, Part.bytes] at short ⊢
    rw [denotes.eq_encode (by omega), ih (by omega)]
  | @data front back parts others ih =>
    simp only [bytes_cons, List.length_append, Part.bytes] at short ⊢
    rw [ih (by omega)]

end Frame

namespace Codec

/-- The frame of the encoding of a value; what has no encoding has no frame worth the name. -/
def frame : {t : Ty} → Codec t → t.Value → Frame
  | _, .int _ w, v => [.data (bigEndian w.bytes v.toNat)]
  | _, .float p, v => [.data (bigEndian p.width.bytes v.toNat)]
  | _, .bool, v => [.data [Emission.flagByte v]]
  | _, .unit, _ => []
  | _, .never, v => v.elim
  | _, .text, v => [.length (Utf8.encode v).length, .data (Utf8.encode v)]
  | _, .bytes, v => [.length v.length, .data v]
  | _, .compact _ _, v => [.data (Varint.encode v.toNat)]
  | _, .derived _ codec toBase _, v =>
    match toBase v with
    | .ok base => codec.frame base
    | .error _ => []
  | _, .terse _ _ codec, v => codec.frame v
  | _, .seq _ codec, elements => .length elements.length :: elements.flatMap codec.frame
  | _, .map _ k v, entries =>
    .length entries.length :: entries.flatMap fun entry => k.frame entry.1 ++ v.frame entry.2
  | _, .option _, none => [.data [Emission.flagByte false]]
  | _, .option codec, some inner => .data [Emission.flagByte true] :: codec.frame inner
  | _, .pair a b, v => a.frame v.1 ++ b.frame v.2
  | _, .triple a b c, v => a.frame v.1 ++ (b.frame v.2.1 ++ c.frame v.2.2)

/-- The counts and lengths that the encoding of a value announces. -/
def lengths : {t : Ty} → Codec t → t.Value → List Nat
  | _, .text, v => [(Utf8.encode v).length]
  | _, .bytes, v => [v.length]
  | _, .derived _ codec toBase _, v =>
    match toBase v with
    | .ok base => codec.lengths base
    | .error _ => []
  | _, .terse _ _ codec, v => codec.lengths v
  | _, .seq _ codec, elements => elements.length :: elements.flatMap codec.lengths
  | _, .map _ k v, entries =>
    entries.length :: entries.flatMap fun entry => k.lengths entry.1 ++ v.lengths entry.2
  | _, .option _, none => []
  | _, .option codec, some inner => codec.lengths inner
  | _, .pair a b, v => a.lengths v.1 ++ b.lengths v.2
  | _, .triple a b c, v => a.lengths v.1 ++ (b.lengths v.2.1 ++ c.lengths v.2.2)
  | _, _, _ => []

/-- The limits allow every count and length that the encoding of a value announces. -/
def Within (limits : DecodeLimits) {t : Ty} (codec : Codec t) (v : t.Value) : Prop :=
  ∀ length ∈ codec.lengths v, length ≤ limits.maxLength.toNat

theorem frame_of_mapped {base target : Ty} {name : String} {codec : Codec base}
    {toBase : target.Value → Except Refusal base.Value} {fromBase : base.Value → Except String target.Value}
    {value : target.Value} {inner : base.Value} (mapped : toBase value = .ok inner) :
    (Codec.derived name codec toBase fromBase).frame value = codec.frame inner := by
  rw [frame, mapped]

theorem lengths_of_mapped {base target : Ty} {name : String} {codec : Codec base}
    {toBase : target.Value → Except Refusal base.Value} {fromBase : base.Value → Except String target.Value}
    {value : target.Value} {inner : base.Value} (mapped : toBase value = .ok inner) :
    (Codec.derived name codec toBase fromBase).lengths value = codec.lengths inner := by
  rw [lengths, mapped]

/-- The lengths that an encoding announces are those in its frame. -/
theorem mem_lengths_iff {t : Ty} (codec : Codec t) (v : t.Value) (n : Nat) :
    n ∈ codec.lengths v ↔ .length n ∈ codec.frame v := by
  induction codec with
  | never => exact v.elim
  | derived name codec toBase fromBase ih =>
    rw [lengths, frame]
    cases toBase v with
    | ok base => exact ih base
    | error refusal => simp
  | terse name objection codec ih => exact ih v
  | seq shape codec ih => simp [lengths, frame, ih]
  | map shape k v ihk ihv => simp [lengths, frame, ihk, ihv]
  | option codec ih =>
    cases v with
    | none => simp [lengths, frame]
    | some inner => simp [lengths, frame, ih]
  | pair a b iha ihb => simp [lengths, frame, iha, ihb]
  | triple a b c iha ihb ihc => simp [lengths, frame, iha, ihb, ihc]
  | _ => simp [lengths, frame]

/-- Encoding takes the shortest spelling of the frame. -/
theorem bytes_frame {t : Ty} {codec : Codec t} {v : t.Value} {bytes : List Byte}
    (encodes : codec.toBytes v = .ok bytes) : (codec.frame v).bytes = bytes := by
  induction codec generalizing bytes with
  | int sign width =>
    cases (toBytes_int sign width v).symm.trans encodes
    exact List.append_nil _
  | float p =>
    cases (toBytes_float p v).symm.trans encodes
    exact List.append_nil _
  | bool =>
    cases (toBytes_bool v).symm.trans encodes
    rfl
  | unit =>
    cases encodes
    rfl
  | never => exact v.elim
  | text =>
    cases (toBytes_payload (Utf8.encode v)).symm.trans encodes
    exact congrArg _ (List.append_nil _)
  | bytes =>
    cases (toBytes_payload v).symm.trans encodes
    exact congrArg _ (List.append_nil _)
  | compact name objection =>
    cases (Emission.toBytes_raw _).symm.trans encodes
    exact List.append_nil _
  | derived name codec toBase fromBase ih =>
    obtain ⟨inner, mapped, encodes⟩ := toBytes_derived_iff.mp encodes
    rw [frame_of_mapped mapped]
    exact ih encodes
  | terse name objection codec ih => exact ih encodes
  | seq shape codec ih =>
    obtain ⟨parts, placed, rfl⟩ := toBytes_seq_iff.mp encodes
    exact congrArg _ (Frame.bytes_flatMap (placed.imp fun x part => ih))
  | map shape keyCodec valueCodec ihk ihv =>
    obtain ⟨parts, placed, rfl⟩ := toBytes_map_iff.mp encodes
    refine congrArg _ (Frame.bytes_flatMap (placed.imp ?_))
    rintro entry part ⟨front, back, first, second, rfl⟩
    rw [Frame.bytes_append, ihk first, ihv second]
  | option codec ih =>
    cases v with
    | none =>
      cases (toBytes_none codec).symm.trans encodes
      rfl
    | some inner =>
      obtain ⟨back, encodes', rfl⟩ := toBytes_some_iff.mp encodes
      exact congrArg _ (ih encodes')
  | pair first second iha ihb =>
    obtain ⟨front, back, fronts, backs, rfl⟩ := toBytes_pair_iff.mp encodes
    rw [← iha fronts, ← ihb backs]
    exact Frame.bytes_append _ _
  | triple first second third iha ihb ihc =>
    obtain ⟨front, middle, back, fronts, middles, backs, rfl⟩ := toBytes_triple_iff.mp encodes
    rw [← iha fronts, ← ihb middles, ← ihc backs, ← Frame.bytes_append, ← Frame.bytes_append]
    rfl

end Codec
end TypedWire
