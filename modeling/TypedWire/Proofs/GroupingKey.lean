import TypedWire.Proofs.LengthPrefix
import TypedWire.Proofs.StructuralEquality

/-! Encodings carry no frames, yet what one says and where it ends can be told from its bytes; and a
deterministic codec writes values that are alike as the same bytes. -/

namespace TypedWire

/-! ### Telling apart what stands at the front -/

section Fronts

variable {α : Type} {F : α → List Byte → Prop} {R : α → α → Prop}

/-- If images can be told apart at the front of bytes, so can as many of them in a row. -/
private theorem flatten_append_inj {a b : List α} {p q : List (List Byte)} {rest rest' : List Byte}
    (imageA : List.Forall₂ F a p) (imageB : List.Forall₂ F b q) (lengths : a.length = b.length)
    (step : ∀ x ∈ a, ∀ y ∈ b, ∀ z w, F x z → F y w → ∀ more more', z ++ more = w ++ more' → R x y ∧ more = more')
    (same : p.flatten ++ rest = q.flatten ++ rest') : List.Forall₂ R a b ∧ rest = rest' := by
  induction imageA generalizing b q with
  | nil =>
    cases imageB with
    | nil => exact ⟨.nil, same⟩
    | cons => simp at lengths
  | cons firstA _ ih =>
    cases imageB with
    | nil => simp at lengths
    | cons firstB laterB =>
      simp only [List.flatten_cons, List.append_assoc] at same
      obtain ⟨related, same⟩ := step _ (by simp) _ (by simp) _ _ firstA firstB _ _ same
      obtain ⟨others, ends⟩ := ih laterB (by simpa using lengths) (fun x member y there =>
        step x (List.mem_cons_of_mem _ member) y (List.mem_cons_of_mem _ there)) same
      exact ⟨.cons related others, ends⟩

private theorem payload_append_inj {a b rest rest' : List Byte}
    (same : Varint.encode a.length ++ a ++ rest = Varint.encode b.length ++ b ++ rest') : a = b ∧ rest = rest' := by
  simp only [List.append_assoc] at same
  obtain ⟨lengths, same⟩ := Varint.encode_append_inj same
  exact List.append_inj same lengths

private theorem word_append_inj {w : Width} {a b : Word w} {rest rest' : List Byte}
    (same : bigEndian w.bytes a.toNat ++ rest = bigEndian w.bytes b.toNat ++ rest') : a = b ∧ rest = rest' := by
  obtain ⟨words, ends⟩ := List.append_inj same (by simp)
  exact ⟨bigEndian_word_iff.mp words, ends⟩

end Fronts

namespace Codec

/-- Encodings at the front of the same bytes are those of values that are alike, and the same bytes follow. -/
def Legible {t : Ty} (codec : Codec t) : Prop :=
  ∀ {a b : t.Value}, t.ScalesFit a → t.ScalesFit b → ∀ {x y rest rest' : List Byte},
    codec.toBytes a = .ok x → codec.toBytes b = .ok y → x ++ rest = y ++ rest' → t.Alike a b ∧ rest = rest'

section Legible

variable {t k v : Ty}

theorem legible_int (sign : Sign) (width : Width) : Legible (.int sign width) := by
  intro a b _ _ x y rest rest' first second same
  cases (toBytes_int sign width a).symm.trans first
  cases (toBytes_int sign width b).symm.trans second
  exact word_append_inj same

theorem legible_float (p : Precision) : Legible (.float p) := by
  intro a b _ _ x y rest rest' first second same
  cases (toBytes_float p a).symm.trans first
  cases (toBytes_float p b).symm.trans second
  exact word_append_inj same

theorem legible_bool : Legible .bool := by
  intro a b _ _ x y rest rest' first second same
  cases (toBytes_bool a).symm.trans first
  cases (toBytes_bool b).symm.trans second
  obtain ⟨flags, ends⟩ := List.append_inj same rfl
  refine ⟨?_, ends⟩
  change a = b
  cases a <;> cases b <;> simp_all [Emission.flagByte]

theorem legible_text : Legible .text := by
  intro a b _ _ x y rest rest' first second same
  cases (toBytes_payload (Utf8.encode a)).symm.trans first
  cases (toBytes_payload (Utf8.encode b)).symm.trans second
  obtain ⟨texts, ends⟩ := payload_append_inj same
  exact ⟨Utf8.encode_eq_iff.mp texts, ends⟩

theorem legible_bytes : Legible .bytes := by
  intro a b _ _ x y rest rest' first second same
  cases (toBytes_payload a).symm.trans first
  cases (toBytes_payload b).symm.trans second
  obtain ⟨rfl, ends⟩ := payload_append_inj same
  exact ⟨List.forall₂_same.mpr fun _ _ => rfl, ends⟩

theorem legible_char : Legible Codec.char := by
  intro a b _ _ x y rest rest' first second same
  obtain ⟨byteA, codedA, first⟩ := toBytes_derived_iff.mp first
  obtain ⟨byteB, codedB, second⟩ := toBytes_derived_iff.mp second
  obtain ⟨coded, ends⟩ := legible_int .unsigned .one trivial trivial first second same
  cases coded
  exact ⟨charToByte_inj codedA codedB, ends⟩

theorem legible_integer : Legible Codec.integer := by
  intro a b _ _ x y rest rest' first second same
  cases (toBytes_payload (TwosComplement.encode a)).symm.trans first
  cases (toBytes_payload (TwosComplement.encode b)).symm.trans second
  obtain ⟨numerals, ends⟩ := payload_append_inj same
  exact ⟨TwosComplement.encode_eq_iff.mp numerals, ends⟩

theorem legible_seq {shape : SeqShape} {codec : Codec t} (legible : codec.Legible) :
    Legible (.seq shape codec) := by
  intro a b fitA fitB x y rest rest' first second same
  obtain ⟨partsA, imageA, rfl⟩ := toBytes_seq_iff.mp first
  obtain ⟨partsB, imageB, rfl⟩ := toBytes_seq_iff.mp second
  simp only [List.append_assoc] at same
  obtain ⟨lengths, same⟩ := Varint.encode_append_inj same
  have step : ∀ x ∈ a, ∀ y ∈ b, ∀ z w, codec.toBytes x = .ok z → codec.toBytes y = .ok w →
      ∀ more more', z ++ more = w ++ more' → t.Alike x y ∧ more = more' := by
    intro x member y there z w imageX imageY more more' same
    exact legible (fitA x member) (fitB y there) imageX imageY same
  obtain ⟨placed, ends⟩ := flatten_append_inj imageA imageB lengths step same
  refine ⟨?_, ends⟩
  cases shape with
  | sortedSet => exact holdSame_of_forall₂ placed
  | hashSet => exact holdSame_of_forall₂ placed
  | _ => exact placed

theorem legible_pair {first : Codec t} {second : Codec k} (one : first.Legible) (two : second.Legible) :
    Legible (.pair first second) := by
  intro a b fitA fitB x y rest rest' writesA writesB same
  obtain ⟨frontA, backA, frontsA, backsA, rfl⟩ := toBytes_pair_iff.mp writesA
  obtain ⟨frontB, backB, frontsB, backsB, rfl⟩ := toBytes_pair_iff.mp writesB
  simp only [List.append_assoc] at same
  obtain ⟨related, same⟩ := one fitA.1 fitB.1 frontsA frontsB same
  obtain ⟨related', ends⟩ := two fitA.2 fitB.2 backsA backsB same
  exact ⟨⟨related, related'⟩, ends⟩

theorem legible_triple {first : Codec t} {second : Codec k} {third : Codec v} (one : first.Legible)
    (two : second.Legible) (three : third.Legible) : Legible (.triple first second third) := by
  intro a b fitA fitB x y rest rest' writesA writesB same
  obtain ⟨frontA, middleA, backA, frontsA, middlesA, backsA, rfl⟩ := toBytes_triple_iff.mp writesA
  obtain ⟨frontB, middleB, backB, frontsB, middlesB, backsB, rfl⟩ := toBytes_triple_iff.mp writesB
  simp only [List.append_assoc] at same
  obtain ⟨related, same⟩ := one fitA.1 fitB.1 frontsA frontsB same
  obtain ⟨related', same⟩ := two fitA.2.1 fitB.2.1 middlesA middlesB same
  obtain ⟨related'', ends⟩ := three fitA.2.2 fitB.2.2 backsA backsB same
  exact ⟨⟨related, related', related''⟩, ends⟩

theorem legible_decimal : Legible Codec.decimal := by
  intro a b _ _ x y rest rest' first second same
  obtain ⟨m, normalA, first⟩ := toBytes_decimal_iff.mp first
  obtain ⟨n, normalB, second⟩ := toBytes_decimal_iff.mp second
  obtain ⟨⟨scales, digits⟩, ends⟩ := legible_pair (legible_int .signed .eight) legible_integer
    ⟨trivial, trivial⟩ ⟨trivial, trivial⟩ first second same
  exact ⟨(Decimal.normal_eq_iff normalA normalB).mp ((Decimal.eq_iff m n).mpr ⟨digits, scales⟩), ends⟩

theorem legible_map {shape : MapShape} {keyCodec : Codec k} {valueCodec : Codec v} (keys : keyCodec.Legible)
    (values : valueCodec.Legible) : Legible (.map shape keyCodec valueCodec) := by
  intro a b fitA fitB x y rest rest' first second same
  obtain ⟨partsA, imageA, rfl⟩ := toBytes_map_iff.mp first
  obtain ⟨partsB, imageB, rfl⟩ := toBytes_map_iff.mp second
  simp only [List.append_assoc] at same
  obtain ⟨lengths, same⟩ := Varint.encode_append_inj same
  have placed : List.Forall₂ (fun p q => k.Alike p.1 q.1 ∧ v.Alike p.2 q.2) a b ∧ rest = rest' := by
    refine flatten_append_inj imageA imageB lengths ?_ same
    rintro p memberP q memberQ _ _ ⟨frontP, backP, keyP, valueP, rfl⟩ ⟨frontQ, backQ, keyQ, valueQ, rfl⟩ more more' same
    simp only [List.append_assoc] at same
    obtain ⟨related, same⟩ := keys (fitA p memberP).1 (fitB q memberQ).1 keyP keyQ same
    obtain ⟨related', ends⟩ := values (fitA p memberP).2 (fitB q memberQ).2 valueP valueQ same
    exact ⟨⟨related, related'⟩, ends⟩
  exact ⟨holdSame_of_forall₂ placed.1, placed.2⟩

theorem legible_option {codec : Codec t} (legible : codec.Legible) : Legible (.option codec) := by
  intro a b fitA fitB x y rest rest' first second same
  cases a with
  | none =>
    cases (toBytes_none _).symm.trans first
    cases b with
    | none =>
      cases (toBytes_none _).symm.trans second
      exact ⟨.none, (List.append_inj same rfl).2⟩
    | some v =>
      obtain ⟨back, later, rfl⟩ := toBytes_some_iff.mp second
      simp at same
  | some u =>
    obtain ⟨backA, laterA, rfl⟩ := toBytes_some_iff.mp first
    cases b with
    | none =>
      cases (toBytes_none _).symm.trans second
      simp at same
    | some v =>
      obtain ⟨backB, laterB, rfl⟩ := toBytes_some_iff.mp second
      obtain ⟨related, ends⟩ := legible (fitA u rfl) (fitB v rfl) laterA laterB (List.cons.inj same).2
      exact ⟨.some related, ends⟩

end Legible

theorem Standard.legible {t : Ty} {codec : Codec t} (standard : codec.Standard) : codec.Legible := by
  induction standard with
  | int sign width => exact legible_int sign width
  | float p => exact legible_float p
  | bool => exact legible_bool
  | unit =>
    intro a b _ _ x y rest rest' first second same
    cases first
    cases second
    exact ⟨rfl, same⟩
  | never =>
    intro a
    exact a.elim
  | text => exact legible_text
  | bytes => exact legible_bytes
  | char => exact legible_char
  | integer => exact legible_integer
  | decimal => exact legible_decimal
  | seq shape ordered _ ih => exact legible_seq ih
  | map shape ordered _ _ ihk ihv => exact legible_map ihk ihv
  | option _ ih => exact legible_option ih
  | pair _ _ iha ihb => exact legible_pair iha ihb
  | triple _ _ _ iha ihb ihc => exact legible_triple iha ihb ihc

theorem alike_of_same {t : Ty} {codec : Codec t} (standard : codec.Standard) {a b : t.Value}
    (fitA : t.ScalesFit a) (fitB : t.ScalesFit b) {bytes : List Byte} (first : codec.toBytes a = .ok bytes)
    (second : codec.toBytes b = .ok bytes) : t.Alike a b :=
  (standard.legible fitA fitB first second (@rfl _ (bytes ++ []))).1

/-! ### Writing what is alike alike -/

private theorem same_of_eq {t : Ty} {codec : Codec t} {a b : t.Value} (equal : a = b) {x y : List Byte}
    (first : codec.toBytes a = .ok x) (second : codec.toBytes b = .ok y) : x = y := by
  rw [equal, second] at first
  exact (Except.ok.inj first).symm

/-- A deterministic codec writes values that are alike as the same bytes. -/
theorem same_of_alike {t : Ty} {codec : Codec t} (standard : codec.Standard)
    (deterministic : codec.determinism = .ok ()) {a b : t.Value} (validA : t.Valid a) (validB : t.Valid b)
    (fitA : t.ScalesFit a) (fitB : t.ScalesFit b) {x y : List Byte} (first : codec.toBytes a = .ok x)
    (second : codec.toBytes b = .ok y) (alike : t.Alike a b) : x = y := by
  induction standard generalizing x y with
  | bytes =>
    rw [Ty.Alike, SeqShape.Relates] at alike
    exact same_of_eq (List.forall₂_eq_eq_eq ▸ alike) first second
  | decimal =>
    obtain ⟨m, normalA, first⟩ := toBytes_decimal_iff.mp first
    obtain ⟨n, normalB, second⟩ := toBytes_decimal_iff.mp second
    rw [(Decimal.normal_eq_iff normalA normalB).mpr alike] at first
    exact Except.ok.inj (first.symm.trans second)
  | seq shape ordered standard ih =>
    obtain ⟨unhashed, deterministic⟩ := determinism_seq_iff.mp deterministic
    obtain ⟨partsA, imageA, rfl⟩ := toBytes_seq_iff.mp first
    obtain ⟨partsB, imageB, rfl⟩ := toBytes_seq_iff.mp second
    have placed := (SeqShape.relates_iff_forall₂ unhashed ordered validA validB).mp alike
    have parts : partsA = partsB := by
      refine (images_eq_iff imageA imageB ?_).mpr placed
      intro u member v there z w imageU imageV
      constructor
      · rintro rfl
        exact alike_of_same standard (fitA u member) (fitB v there) imageU imageV
      · intro related
        exact ih deterministic (validA.2 u member) (validB.2 v there) (fitA u member) (fitB v there) imageU
          imageV related
    rw [parts, placed.length_eq]
  | map => exact absurd deterministic determinism_map
  | option _ ih =>
    cases alike with
    | none => exact same_of_eq rfl first second
    | some related =>
      obtain ⟨backA, laterA, rfl⟩ := toBytes_some_iff.mp first
      obtain ⟨backB, laterB, rfl⟩ := toBytes_some_iff.mp second
      exact congrArg _ (ih (determinism_option_iff.mp deterministic) (validA _ rfl) (validB _ rfl) (fitA _ rfl)
        (fitB _ rfl) laterA laterB related)
  | pair _ _ iha ihb =>
    obtain ⟨deterministic₁, deterministic₂⟩ := determinism_pair_iff.mp deterministic
    obtain ⟨frontA, backA, one, two, rfl⟩ := toBytes_pair_iff.mp first
    obtain ⟨frontB, backB, one', two', rfl⟩ := toBytes_pair_iff.mp second
    have fronts := iha deterministic₁ validA.1 validB.1 fitA.1 fitB.1 one one' alike.1
    have backs := ihb deterministic₂ validA.2 validB.2 fitA.2 fitB.2 two two' alike.2
    rw [fronts, backs]
  | triple _ _ _ iha ihb ihc =>
    obtain ⟨deterministic₁, deterministic₂, deterministic₃⟩ := determinism_triple_iff.mp deterministic
    obtain ⟨frontA, middleA, backA, one, two, three, rfl⟩ := toBytes_triple_iff.mp first
    obtain ⟨frontB, middleB, backB, one', two', three', rfl⟩ := toBytes_triple_iff.mp second
    have fronts := iha deterministic₁ validA.1 validB.1 fitA.1 fitB.1 one one' alike.1
    have middles := ihb deterministic₂ validA.2.1 validB.2.1 fitA.2.1 fitB.2.1 two two' alike.2.1
    have backs := ihc deterministic₃ validA.2.2 validB.2.2 fitA.2.2 fitB.2.2 three three' alike.2.2
    rw [fronts, middles, backs]
  | _ => exact same_of_eq alike first second

/-- Where a codec is deterministic, two values match exactly if their encodings are the same bytes. A codec for
which equality of values is equality of encodings is deterministic, and under it two values are equal exactly
if their encodings are the same bytes. -/
theorem matching_iff_same_bytes {t : Ty} {codec : Codec t} (standard : codec.Standard) :
    (codec.equalityConsistent = true → codec.determinism = .ok ()) ∧
      ∀ {a b : t.Value}, t.Valid a → t.Valid b → t.ScalesFit a → t.ScalesFit b →
        ∀ {x y : List Byte}, codec.toBytes a = .ok x → codec.toBytes b = .ok y →
          (codec.determinism = .ok () → (codec.matching a b = .ok true ↔ x = y)) ∧
            (codec.equalityConsistent = true → (t.equal a b = true ↔ x = y)) := by
  refine ⟨determinism_of_consistent codec, ?_⟩
  intro a b validA validB fitA fitB x y first second
  have matches_iff : codec.determinism = .ok () → (codec.matching a b = .ok true ↔ x = y) := by
    intro deterministic
    obtain ⟨standA, stands⟩ := (toBytes_ok_iff codec a).mp ⟨x, first⟩
    obtain ⟨standB, stands'⟩ := (toBytes_ok_iff codec b).mp ⟨y, second⟩
    rw [matching_iff standard validA validB fitA fitB stands stands']
    constructor
    · exact same_of_alike standard deterministic validA validB fitA fitB first second
    · rintro rfl
      exact alike_of_same standard fitA fitB first second
  refine ⟨matches_iff, fun consistent => ?_⟩
  rw [← matches_iff (determinism_of_consistent codec consistent), matching, if_pos consistent, Except.ok.injEq]

/-- The number 1.5, with two scales, beside a text. -/
theorem matching_iff_same_bytes_decimals :
    ∃ x y, (Codec.pair Codec.decimal .text).toBytes (⟨15, 1⟩, "a") = .ok x ∧
      (Codec.pair Codec.decimal .text).toBytes (⟨150, 2⟩, "a") = .ok y ∧
      ((Codec.pair Codec.decimal .text).matching (⟨15, 1⟩, "a") (⟨150, 2⟩, "a") = .ok true ↔ x = y) ∧
      (Ty.equal (.pair .decimal .text) (⟨15, 1⟩, "a") (⟨150, 2⟩, "a") = true ↔ x = y) := by
  have standard : (Codec.pair Codec.decimal .text).Standard := .pair .decimal .text
  have fitA : (⟨15, 1⟩ : Decimal).ScaleFits := by
    simp [Decimal.ScaleFits, Decimal.trailingZeros, Decimal.stripZeros]
  have fitB : (⟨150, 2⟩ : Decimal).ScaleFits := by
    simp [Decimal.ScaleFits, Decimal.trailingZeros, Decimal.stripZeros]
  have written : ∀ {d : Decimal}, d.ScaleFits →
      ∃ bytes, (Codec.pair Codec.decimal .text).toBytes (d, "a") = .ok bytes := by
    intro d fits
    obtain ⟨stand, stands⟩ := exists_structural_decimal fits
    exact (toBytes_ok_iff _ _).mpr ⟨_, structural_pair_iff.mpr ⟨_, _, stands, rfl, rfl⟩⟩
  obtain ⟨x, first⟩ := written fitA
  obtain ⟨y, second⟩ := written fitB
  obtain ⟨deterministic, agree⟩ := matching_iff_same_bytes standard
  have same := @agree (⟨15, 1⟩, "a") (⟨150, 2⟩, "a") ⟨trivial, trivial⟩ ⟨trivial, trivial⟩ ⟨fitA, trivial⟩
    ⟨fitB, trivial⟩ x y first second
  exact ⟨x, y, first, second, same.1 (deterministic rfl), same.2 rfl⟩

end Codec
end TypedWire
