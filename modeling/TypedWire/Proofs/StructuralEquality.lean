import TypedWire.Proofs.Encoding
import TypedWire.Proofs.Numerals
import TypedWire.Proofs.Settling
import TypedWire.Proofs.Standard
import TypedWire.Proofs.StructuralOrder
import TypedWire.Proofs.Text

/-! The stand-in of a value forgets the order in which hashed containers yield what they hold and the scales
of decimals, and nothing else. -/

namespace TypedWire

/-! ### Lists of images that agree -/

section Images

variable {α β : Type} {F : α → β → Prop} {a b : List α} {p q : List β}

/-- Images of lists are the same if the members are related in pairs. -/
theorem images_eq_iff {R : α → α → Prop} (imageA : List.Forall₂ F a p) (imageB : List.Forall₂ F b q)
    (faithful : ∀ x ∈ a, ∀ y ∈ b, ∀ z w, F x z → F y w → (z = w ↔ R x y)) :
    p = q ↔ List.Forall₂ R a b := by
  induction imageA generalizing b q with
  | nil => cases imageB <;> simp
  | cons firstA _ ih =>
    cases imageB with
    | nil => simp
    | cons firstB laterB =>
      have onward := ih laterB fun x member y there =>
        faithful x (List.mem_cons_of_mem _ member) y (List.mem_cons_of_mem _ there)
      rw [List.cons.injEq, List.forall₂_cons, onward, faithful _ (by simp) _ (by simp) _ _ firstA firstB]

theorem images_mem_iff {R : α → α → Prop} (imageA : List.Forall₂ F a p) (imageB : List.Forall₂ F b q)
    (faithful : ∀ x ∈ a, ∀ y ∈ b, ∀ z w, F x z → F y w → (z = w ↔ R x y)) :
    (∀ z, z ∈ p ↔ z ∈ q) ↔ HoldSame R a b := by
  constructor
  · intro same
    refine ⟨fun x member => ?_, fun y member => ?_⟩
    · obtain ⟨z, there, image⟩ := exists_image_of_mem imageA member
      obtain ⟨y, origin, image'⟩ := exists_of_mem_images imageB ((same z).mp there)
      exact ⟨y, origin, (faithful x member y origin z z image image').mp rfl⟩
    · obtain ⟨z, there, image⟩ := exists_image_of_mem imageB member
      obtain ⟨x, origin, image'⟩ := exists_of_mem_images imageA ((same z).mpr there)
      exact ⟨x, origin, (faithful x origin y member z z image' image).mp rfl⟩
  · rintro ⟨forth, back⟩ z
    constructor
    · intro member
      obtain ⟨x, origin, image⟩ := exists_of_mem_images imageA member
      obtain ⟨y, there, related⟩ := forth x origin
      obtain ⟨w, member', image'⟩ := exists_image_of_mem imageB there
      exact (faithful x origin y there z w image image').mpr related ▸ member'
    · intro member
      obtain ⟨y, origin, image⟩ := exists_of_mem_images imageB member
      obtain ⟨x, there, related⟩ := back y origin
      obtain ⟨w, member', image'⟩ := exists_image_of_mem imageA there
      exact (faithful x there y origin w z image' image).mpr related ▸ member'

theorem pairwise_images {S : α → α → Prop} {T : β → β → Prop} (imageA : List.Forall₂ F a p)
    (apart : a.Pairwise S) (step : ∀ x ∈ a, ∀ y ∈ a, ∀ z w, F x z → F y w → S x y → T z w) : p.Pairwise T := by
  induction imageA with
  | nil => exact .nil
  | cons first later ih =>
    obtain ⟨before, apart⟩ := List.pairwise_cons.mp apart
    refine List.pairwise_cons.mpr ⟨fun w member => ?_, ih apart fun x member y there =>
      step x (List.mem_cons_of_mem _ member) y (List.mem_cons_of_mem _ there)⟩
    obtain ⟨y, origin, image⟩ := exists_of_mem_images later member
    exact step _ (by simp) y (List.mem_cons_of_mem _ origin) _ _ first image (before y origin)

end Images

namespace Codec

/-- The stand-in of a value keeps everything that the value holds, at any depth: each element of a set and
each key of a map has an entry of its own in it. -/
def Keeps : {t : Ty} → Codec t → t.Value → StructuralValue → Prop
  | _, .derived _ codec toBase _, v, stand => ∃ base, toBase v = .ok base ∧ codec.Keeps base stand
  | _, .seq shape codec, elements, stand =>
    ∃ images, List.Forall₂ codec.Keeps elements images ∧
      if shape.order = .hashed then ∃ held, stand = .set held ∧ held.Perm images ∧ held.Nodup
      else stand = .seq images
  | _, .map _ k v, entries, stand =>
    ∃ images : List (StructuralValue × StructuralValue),
      List.Forall₂ (fun entry image => k.Keeps entry.1 image.1 ∧ v.Keeps entry.2 image.2) entries images ∧
        ∃ held, stand = .map held ∧ held.Perm images ∧ (held.map Prod.fst).Nodup
  | _, .option _, none, stand => stand = .absent
  | _, .option codec, some v, stand => ∃ image, codec.Keeps v image ∧ stand = .present image
  | _, .pair a b, v, stand => ∃ x y, a.Keeps v.1 x ∧ b.Keeps v.2 y ∧ stand = .tuple [x, y]
  | _, .triple a b c, v, stand =>
    ∃ x y z, a.Keeps v.1 x ∧ b.Keeps v.2.1 y ∧ c.Keeps v.2.2 z ∧ stand = .tuple [x, y, z]
  | _, codec, v, stand => codec.structural v = .ok stand

/-! ### Stand-ins of values -/

theorem structural_decimal_iff {d : Decimal} {stand : StructuralValue} :
    Codec.decimal.structural d = .ok stand ↔
      ∃ n, d.normal = some n ∧ .tuple [.bytes (bigEndian Width.eight.bytes n.scale.toNat),
        .bytes (TwosComplement.encode n.digits)] = stand := by
  rw [Codec.decimal, structural_derived, decimalParts]
  cases d.normal with
  | none => simp
  | some n =>
    constructor
    · intro same
      exact ⟨n, rfl, Except.ok.inj same⟩
    · rintro ⟨_, ⟨⟩, same⟩
      exact congrArg _ same

/-- A decimal has a stand-in if its scale has room for the trailing zeros. -/
theorem exists_structural_decimal {d : Decimal} (fits : d.ScaleFits) :
    ∃ stand, Codec.decimal.structural d = .ok stand := by
  obtain ⟨n, normal⟩ := Decimal.exists_normal fits
  exact ⟨_, structural_decimal_iff.mpr ⟨n, normal, rfl⟩⟩

private theorem word_stands_iff {w : Width} {a b : Word w} :
    StructuralValue.bytes (bigEndian w.bytes a.toNat) = .bytes (bigEndian w.bytes b.toNat) ↔ a = b := by
  rw [StructuralValue.bytes.injEq, bigEndian_word_iff]

/-- Stand-ins under a codec are equal exactly if they stand for values that are alike. -/
def Faithful {t : Ty} (codec : Codec t) : Prop :=
  ∀ {a b : t.Value}, t.Valid a → t.Valid b → t.ScalesFit a → t.ScalesFit b → ∀ {x y : StructuralValue},
    codec.structural a = .ok x → codec.structural b = .ok y → (x = y ↔ t.Alike a b)

section Faithful

variable {t k v : Ty}

theorem faithful_bool : Faithful .bool := by
  intro a b _ _ _ _ x y first second
  cases first
  cases second
  change StructuralValue.bytes [Emission.flagByte a] = .bytes [Emission.flagByte b] ↔ a = b
  cases a <;> cases b <;> simp [Emission.flagByte]

theorem faithful_text : Faithful .text := by
  intro a b _ _ _ _ x y first second
  cases first
  cases second
  change StructuralValue.bytes (Utf8.encode a) = .bytes (Utf8.encode b) ↔ a = b
  rw [StructuralValue.bytes.injEq, Utf8.encode_eq_iff]

theorem faithful_bytes : Faithful .bytes := by
  intro a b _ _ _ _ x y first second
  cases first
  cases second
  refine Iff.trans ⟨StructuralValue.bytes.inj, congrArg _⟩ ?_
  exact (iff_of_eq (congrFun₂ List.forall₂_eq_eq_eq a b)).symm

theorem faithful_char : Faithful Codec.char := by
  intro a b _ _ _ _ x y first second
  obtain ⟨byteA, codedA, standA⟩ := structural_derived_iff.mp first
  obtain ⟨byteB, codedB, standB⟩ := structural_derived_iff.mp second
  cases standA
  cases standB
  refine word_stands_iff.trans ?_
  constructor
  · rintro rfl
    exact charToByte_inj codedA codedB
  · rintro rfl
    rw [codedA] at codedB
    exact Except.ok.inj codedB

theorem faithful_integer : Faithful Codec.integer := by
  intro a b _ _ _ _ x y first second
  cases first
  cases second
  change StructuralValue.bytes (TwosComplement.encode a) = .bytes (TwosComplement.encode b) ↔ a = b
  rw [StructuralValue.bytes.injEq, TwosComplement.encode_eq_iff]

theorem faithful_decimal : Faithful Codec.decimal := by
  intro a b _ _ _ _ x y first second
  obtain ⟨m, normalA, rfl⟩ := structural_decimal_iff.mp first
  obtain ⟨n, normalB, rfl⟩ := structural_decimal_iff.mp second
  have scales : bigEndian Width.eight.bytes m.scale.toNat = bigEndian Width.eight.bytes n.scale.toNat ↔
      m.scale = n.scale := bigEndian_word_iff
  change _ ↔ a.value = b.value
  rw [← Decimal.normal_eq_iff normalA normalB]
  simp [scales, TwosComplement.encode_eq_iff, Decimal.eq_iff, and_comm]

theorem faithful_seq {shape : SeqShape} {codec : Codec t} (ordered : shape.order ≠ .insertion → t.Ordered)
    (faithful : codec.Faithful) : Faithful (.seq shape codec) := by
  intro a b validA validB fitA fitB x y first second
  obtain ⟨partsA, imageA, rfl⟩ := structural_seq_iff.mp first
  obtain ⟨partsB, imageB, rfl⟩ := structural_seq_iff.mp second
  have each : ∀ x ∈ a, ∀ y ∈ b, ∀ z w, codec.structural x = .ok z → codec.structural y = .ok w →
      (z = w ↔ t.Alike x y) := by
    intro x member y there z w imageX imageY
    exact faithful (validA.2 x member) (validB.2 y there) (fitA x member) (fitB y there) imageX imageY
  by_cases hashed : shape.order = .hashed
  · have placeless : shape.order ≠ .insertion := by
      rw [hashed]
      decide
    rw [if_pos hashed, if_pos hashed, StructuralValue.setOf_eq_iff]
    exact (images_mem_iff imageA imageB each).trans (SeqShape.relates_iff_holdSame placeless).symm
  · rw [if_neg hashed, if_neg hashed, StructuralValue.seq.injEq, images_eq_iff imageA imageB each]
    exact (SeqShape.relates_iff_forall₂ hashed ordered validA validB).symm

/-- Keys that are not alike have stand-ins that differ. -/
private theorem pairwise_key_stands {shape : MapShape} {keyCodec : Codec k} {valueCodec : Codec v}
    (ordered : k.Ordered) (faithful : keyCodec.Faithful) {entries : List (k.Value × v.Value)}
    (valid : Ty.Valid (.map shape k v) entries) (fit : Ty.ScalesFit (.map shape k v) entries)
    {parts : List (StructuralValue × StructuralValue)}
    (image : List.Forall₂ (fun entry part => keyCodec.structural entry.1 = .ok part.1 ∧
      valueCodec.structural entry.2 = .ok part.2) entries parts) : parts.Pairwise fun z w => z.1 ≠ w.1 := by
  refine pairwise_images image (MapShape.pairwise_not_alike ordered valid) ?_
  rintro p memberP q memberQ z w ⟨imageP, -⟩ ⟨imageQ, -⟩ different same
  exact different ((faithful (valid.2 p memberP).1 (valid.2 q memberQ).1 (fit p memberP).1 (fit q memberQ).1
    imageP imageQ).mp same)

theorem faithful_map {shape : MapShape} {keyCodec : Codec k} {valueCodec : Codec v} (ordered : k.Ordered)
    (keys : keyCodec.Faithful) (values : valueCodec.Faithful) : Faithful (.map shape keyCodec valueCodec) := by
  intro a b validA validB fitA fitB x y first second
  obtain ⟨partsA, imageA, rfl⟩ := structural_map_iff.mp first
  obtain ⟨partsB, imageB, rfl⟩ := structural_map_iff.mp second
  rw [StructuralValue.mapOf_eq_iff (pairwise_key_stands ordered keys validA fitA imageA)
    (pairwise_key_stands ordered keys validB fitB imageB)]
  refine images_mem_iff imageA imageB ?_
  rintro p memberP q memberQ z w ⟨keyP, valueP⟩ ⟨keyQ, valueQ⟩
  rw [Prod.ext_iff,
    keys (validA.2 p memberP).1 (validB.2 q memberQ).1 (fitA p memberP).1 (fitB q memberQ).1 keyP keyQ,
    values (validA.2 p memberP).2 (validB.2 q memberQ).2 (fitA p memberP).2 (fitB q memberQ).2 valueP valueQ]

theorem faithful_option {codec : Codec t} (faithful : codec.Faithful) : Faithful (.option codec) := by
  intro a b validA validB fitA fitB x y first second
  cases a with
  | none =>
    cases first
    cases b with
    | none =>
      cases second
      exact iff_of_true rfl .none
    | some v =>
      obtain ⟨inner, -, rfl⟩ := structural_some_iff.mp second
      exact iff_of_false StructuralValue.noConfusion nofun
  | some u =>
    obtain ⟨innerA, standA, rfl⟩ := structural_some_iff.mp first
    cases b with
    | none =>
      cases second
      exact iff_of_false StructuralValue.noConfusion nofun
    | some v =>
      obtain ⟨innerB, standB, rfl⟩ := structural_some_iff.mp second
      have same := faithful (validA u rfl) (validB v rfl) (fitA u rfl) (fitB v rfl) standA standB
      rw [StructuralValue.present.injEq, same]
      exact Option.rel_some_some.symm

theorem faithful_pair {first : Codec t} {second : Codec k} (one : first.Faithful) (two : second.Faithful) :
    Faithful (.pair first second) := by
  intro a b validA validB fitA fitB x y standsA standsB
  obtain ⟨x₁, x₂, first₁, first₂, rfl⟩ := structural_pair_iff.mp standsA
  obtain ⟨y₁, y₂, second₁, second₂, rfl⟩ := structural_pair_iff.mp standsB
  have same₁ := one validA.1 validB.1 fitA.1 fitB.1 first₁ second₁
  have same₂ := two validA.2 validB.2 fitA.2 fitB.2 first₂ second₂
  simp only [StructuralValue.tuple.injEq, List.cons.injEq, and_true, same₁, same₂]
  exact Iff.rfl

theorem faithful_triple {first : Codec t} {second : Codec k} {third : Codec v} (one : first.Faithful)
    (two : second.Faithful) (three : third.Faithful) : Faithful (.triple first second third) := by
  intro a b validA validB fitA fitB x y standsA standsB
  obtain ⟨x₁, x₂, x₃, first₁, first₂, first₃, rfl⟩ := structural_triple_iff.mp standsA
  obtain ⟨y₁, y₂, y₃, second₁, second₂, second₃, rfl⟩ := structural_triple_iff.mp standsB
  have same₁ := one validA.1 validB.1 fitA.1 fitB.1 first₁ second₁
  have same₂ := two validA.2.1 validB.2.1 fitA.2.1 fitB.2.1 first₂ second₂
  have same₃ := three validA.2.2 validB.2.2 fitA.2.2 fitB.2.2 first₃ second₃
  simp only [StructuralValue.tuple.injEq, List.cons.injEq, and_true, same₁, same₂, same₃]
  exact Iff.rfl

end Faithful

/-- Two values have the same stand-in under a standard codec exactly if they are alike. -/
theorem Standard.faithful {t : Ty} {codec : Codec t} (standard : codec.Standard) : codec.Faithful := by
  induction standard with
  | int sign width =>
    intro a b _ _ _ _ x y first second
    cases first
    cases second
    exact word_stands_iff
  | float p =>
    intro a b _ _ _ _ x y first second
    cases first
    cases second
    exact word_stands_iff
  | unit =>
    intro a b _ _ _ _ x y first second
    cases first
    cases second
    exact iff_of_true rfl rfl
  | never =>
    intro a
    exact a.elim
  | bool => exact faithful_bool
  | text => exact faithful_text
  | bytes => exact faithful_bytes
  | char => exact faithful_char
  | integer => exact faithful_integer
  | decimal => exact faithful_decimal
  | seq shape ordered _ ih => exact faithful_seq ordered ih
  | map shape ordered _ _ ihk ihv => exact faithful_map ordered ihk ihv
  | option _ ih => exact faithful_option ih
  | pair _ _ iha ihb => exact faithful_pair iha ihb
  | triple _ _ _ iha ihb ihc => exact faithful_triple iha ihb ihc

/-- Two values with encodings match exactly if they are alike. -/
theorem matching_iff {t : Ty} {codec : Codec t} (standard : codec.Standard) {a b : t.Value}
    (validA : t.Valid a) (validB : t.Valid b) (fitA : t.ScalesFit a) (fitB : t.ScalesFit b)
    {x y : StructuralValue} (first : codec.structural a = .ok x) (second : codec.structural b = .ok y) :
    codec.matching a b = .ok true ↔ t.Alike a b := by
  unfold matching
  by_cases consistent : codec.equalityConsistent = true
  · have ordered := standard.ordered_of_consistent consistent
    rw [if_pos consistent, Except.ok.injEq, Ty.equal_iff_order t ordered, Ty.alike_iff_order t ordered validA validB]
  · rw [if_neg consistent, first, second]
    change Except.ok (x == y) = Except.ok true ↔ _
    rw [Except.ok.injEq, beq_iff_eq, standard.faithful validA validB fitA fitB first second]

/-- A value that is alike to one with a stand-in has one as well. -/
theorem structural_ok_of_alike {t : Ty} {codec : Codec t} (standard : codec.Standard) {a b : t.Value}
    (alike : t.Alike a b) {x : StructuralValue} (first : codec.structural a = .ok x) :
    ∃ y, codec.structural b = .ok y := by
  induction standard generalizing x with
  | never => exact a.elim
  | char =>
    cases alike
    exact ⟨x, first⟩
  | decimal =>
    obtain ⟨m, normal, -⟩ := structural_decimal_iff.mp first
    exact exists_structural_decimal (Decimal.scaleFits_congr alike (Decimal.scaleFits_of_normal normal))
  | @seq shape element codec ordered _ ih =>
    obtain ⟨parts, image, -⟩ := structural_seq_iff.mp first
    have each : ∀ y ∈ b, ∃ stand, codec.structural y = .ok stand := by
      intro y member
      obtain ⟨u, origin, related⟩ := (SeqShape.holdSame_of_relates alike).2 y member
      obtain ⟨z, -, stands⟩ := exists_image_of_mem image origin
      exact ih related stands
    obtain ⟨parts', image'⟩ := exists_images each
    exact ⟨_, structural_seq_iff.mpr ⟨parts', image', rfl⟩⟩
  | @map shape key value keyCodec valueCodec ordered _ _ ihk ihv =>
    obtain ⟨parts, image, -⟩ := structural_map_iff.mp first
    have each : ∀ q ∈ b, ∃ part : StructuralValue × StructuralValue,
        keyCodec.structural q.1 = .ok part.1 ∧ valueCodec.structural q.2 = .ok part.2 := by
      intro q member
      obtain ⟨p, origin, keys, values⟩ := alike.2 q member
      obtain ⟨part, -, first, second⟩ := exists_image_of_mem image origin
      obtain ⟨z, first'⟩ := ihk keys first
      obtain ⟨w, second'⟩ := ihv values second
      exact ⟨(z, w), first', second'⟩
    obtain ⟨parts', image'⟩ := exists_images each
    exact ⟨_, structural_map_iff.mpr ⟨parts', image', rfl⟩⟩
  | option _ ih =>
    cases alike with
    | none => exact ⟨_, rfl⟩
    | some related =>
      obtain ⟨inner, first, -⟩ := structural_some_iff.mp first
      obtain ⟨y, second⟩ := ih related first
      exact ⟨_, structural_some_iff.mpr ⟨y, second, rfl⟩⟩
  | pair _ _ iha ihb =>
    obtain ⟨x₁, x₂, first₁, first₂, -⟩ := structural_pair_iff.mp first
    obtain ⟨y₁, second₁⟩ := iha alike.1 first₁
    obtain ⟨y₂, second₂⟩ := ihb alike.2 first₂
    exact ⟨_, structural_pair_iff.mpr ⟨y₁, y₂, second₁, second₂, rfl⟩⟩
  | triple _ _ _ iha ihb ihc =>
    obtain ⟨x₁, x₂, x₃, first₁, first₂, first₃, -⟩ := structural_triple_iff.mp first
    obtain ⟨y₁, second₁⟩ := iha alike.1 first₁
    obtain ⟨y₂, second₂⟩ := ihb alike.2.1 first₂
    obtain ⟨y₃, second₃⟩ := ihc alike.2.2 first₃
    exact ⟨_, structural_triple_iff.mpr ⟨y₁, y₂, y₃, second₁, second₂, second₃, rfl⟩⟩
  | _ => exact ⟨_, rfl⟩

/-! ### Nothing is lost -/

private theorem pairwise_element_stands {t : Ty} {codec : Codec t} (standard : codec.Standard)
    (ordered : t.Ordered) {elements : List t.Value} {parts : List StructuralValue}
    (valid : Ty.Valid (.seq .hashSet t) elements) (fit : ∀ x ∈ elements, t.ScalesFit x)
    (image : List.Forall₂ (fun x part => codec.structural x = .ok part) elements parts) :
    parts.Pairwise fun z w => z ≠ w := by
  refine pairwise_images image (SeqShape.pairwise_not_alike ordered valid) ?_
  intro x memberX y memberY z w imageX imageY different same
  exact different ((standard.faithful (valid.2 x memberX) (valid.2 y memberY) (fit x memberX) (fit y memberY)
    imageX imageY).mp same)

/-- The stand-in of a valid value keeps everything that the value holds. -/
theorem keeps_structural {t : Ty} {codec : Codec t} (standard : codec.Standard) {v : t.Value}
    (valid : t.Valid v) (fit : t.ScalesFit v) {stand : StructuralValue}
    (stands : codec.structural v = .ok stand) : codec.Keeps v stand := by
  induction standard generalizing stand with
  | char => exact structural_derived_iff.mp stands
  | integer => exact structural_derived_iff.mp stands
  | decimal =>
    obtain ⟨base, parts, stands⟩ := structural_derived_iff.mp stands
    obtain ⟨x, y, scale, digits, rfl⟩ := structural_pair_iff.mp stands
    exact ⟨base, parts, x, y, scale, structural_derived_iff.mp digits, rfl⟩
  | @seq shape element codec ordered standard ih =>
    obtain ⟨parts, image, rfl⟩ := structural_seq_iff.mp stands
    refine ⟨parts, images_imp image fun x member y => ih (valid.2 x member) (fit x member), ?_⟩
    by_cases hashed : shape.order = .hashed
    · have hashSet : shape = .hashSet := by
        cases shape <;> first | rfl | cases hashed
      subst hashSet
      have distinct := pairwise_element_stands standard (ordered (by decide)) valid fit image
      obtain ⟨held, made, perm⟩ := StructuralValue.setOf_eq_set distinct
      rw [if_pos hashed, if_pos hashed]
      exact ⟨held, made, perm, perm.nodup_iff.mpr distinct⟩
    · rw [if_neg hashed, if_neg hashed]
  | map shape ordered standardKey _ ihk ihv =>
    obtain ⟨parts, image, rfl⟩ := structural_map_iff.mp stands
    have distinct := pairwise_key_stands ordered standardKey.faithful valid fit image
    obtain ⟨held, made, perm, -⟩ := StructuralValue.mapOf_eq_map distinct
    refine ⟨parts, images_imp image ?_, held, made, perm, ?_⟩
    · rintro p member part ⟨key, value⟩
      exact ⟨ihk (valid.2 p member).1 (fit p member).1 key, ihv (valid.2 p member).2 (fit p member).2 value⟩
    · exact (perm.map Prod.fst).nodup_iff.mpr (List.pairwise_map.mpr distinct)
  | option _ ih =>
    cases v with
    | none => exact (Except.ok.inj stands).symm
    | some u =>
      obtain ⟨inner, stands', rfl⟩ := structural_some_iff.mp stands
      exact ⟨inner, ih (valid u rfl) (fit u rfl) stands', rfl⟩
  | pair _ _ iha ihb =>
    obtain ⟨x, y, first, second, rfl⟩ := structural_pair_iff.mp stands
    exact ⟨x, y, iha valid.1 fit.1 first, ihb valid.2 fit.2 second, rfl⟩
  | triple _ _ _ iha ihb ihc =>
    obtain ⟨x, y, z, first, second, third, rfl⟩ := structural_triple_iff.mp stands
    exact ⟨x, y, z, iha valid.1 fit.1 first, ihb valid.2.1 fit.2.1 second, ihc valid.2.2 fit.2.2 third, rfl⟩
  | _ => exact stands

/-- Comparing the stand-ins of two values tells whether they mean the same, whatever the order in which
hashed containers at any depth yield what they hold, and no two elements or keys of one container fall
together in its stand-in. -/
theorem same_structural_iff_alike {t : Ty} {codec : Codec t} (standard : codec.Standard) {a b : t.Value}
    (validA : t.Valid a) (validB : t.Valid b) (fitA : t.ScalesFit a) (fitB : t.ScalesFit b)
    {x y : StructuralValue} (first : codec.structural a = .ok x) (second : codec.structural b = .ok y) :
    ((x == y) = true ↔ t.Alike a b) ∧ codec.Keeps a x ∧ codec.Keeps b y := by
  refine ⟨?_, keeps_structural standard validA fitA first, keeps_structural standard validB fitB second⟩
  rw [beq_iff_eq]
  exact standard.faithful validA validB fitA fitB first second

/-- Two sets that hold 1.5 and 2, with other scales and in another order. -/
theorem same_structural_iff_alike_decimals :
    ∃ x y, (Codec.seq .hashSet Codec.decimal).structural [⟨15, 1⟩, ⟨2, 0⟩] = .ok x ∧
      (Codec.seq .hashSet Codec.decimal).structural [⟨2, 0⟩, ⟨150, 2⟩] = .ok y ∧
      (((x == y) = true ↔ Ty.Alike (.seq .hashSet .decimal) [⟨15, 1⟩, ⟨2, 0⟩] [⟨2, 0⟩, ⟨150, 2⟩]) ∧
        (Codec.seq .hashSet Codec.decimal).Keeps [⟨15, 1⟩, ⟨2, 0⟩] x ∧
        (Codec.seq .hashSet Codec.decimal).Keeps [⟨2, 0⟩, ⟨150, 2⟩] y) := by
  have apart : ∀ {a b : Decimal}, a.value ≠ b.value → SeqShape.hashSet.Holds .decimal [a, b] := by
    intro a b different
    have unequal : Ty.equal .decimal a b = false := by
      rw [← Bool.not_eq_true, Ty.equal_iff_order .decimal trivial]
      exact fun level => different ((Decimal.order_eq_iff a b).mp level)
    exact List.pairwise_pair.mpr unequal
  have fit : ∀ {a b : Decimal}, a.ScaleFits → b.ScaleFits → Ty.ScalesFit (.seq .hashSet .decimal) [a, b] := by
    intro a b fitA fitB
    exact List.forall_mem_cons.mpr ⟨fitA, List.forall_mem_singleton.mpr fitB⟩
  have stands : ∀ {a b : Decimal}, a.ScaleFits → b.ScaleFits →
      ∃ x, (Codec.seq .hashSet Codec.decimal).structural [a, b] = .ok x := by
    intro a b fitA fitB
    obtain ⟨x, standA⟩ := exists_structural_decimal fitA
    obtain ⟨y, standB⟩ := exists_structural_decimal fitB
    exact ⟨_, structural_seq_iff.mpr ⟨_, .cons standA (.cons standB .nil), rfl⟩⟩
  have unscaled : Decimal.ScaleFits ⟨2, 0⟩ := by simp [Decimal.ScaleFits, Decimal.trailingZeros, Decimal.stripZeros]
  have tenths : Decimal.ScaleFits ⟨15, 1⟩ := by simp [Decimal.ScaleFits, Decimal.trailingZeros, Decimal.stripZeros]
  have hundredths : Decimal.ScaleFits ⟨150, 2⟩ := by
    simp [Decimal.ScaleFits, Decimal.trailingZeros, Decimal.stripZeros]
  obtain ⟨x, first⟩ := stands tenths unscaled
  obtain ⟨y, second⟩ := stands unscaled hundredths
  refine ⟨x, y, first, second, same_structural_iff_alike
    (@Standard.seq .hashSet .decimal Codec.decimal (fun _ => trivial) .decimal)
    ⟨apart ?_, fun _ _ => trivial⟩ ⟨apart ?_, fun _ _ => trivial⟩ (fit tenths unscaled) (fit unscaled hundredths)
    first second⟩
  · norm_num [Decimal.value, show (1 : BitVec 64).toInt = 1 from rfl, show (0 : BitVec 64).toInt = 0 from rfl]
  · norm_num [Decimal.value, show (0 : BitVec 64).toInt = 0 from rfl, show (2 : BitVec 64).toInt = 2 from rfl]

end Codec
end TypedWire
