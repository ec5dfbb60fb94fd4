import TypedWire.Codec.Derived
import TypedWire.Codec.Determinism
import TypedWire.Proofs.Likeness

/-! Standard are the leaves, the codecs for characters, integers and decimals, and every combination of
these in which the elements of sets and the keys of maps have types with an order. -/

namespace TypedWire.Codec

/-- The codecs that are composed of those that come with the format. -/
inductive Standard : {t : Ty} → Codec t → Prop
  | int (sign : Sign) (width : Width) : Standard (.int sign width)
  | float (precision : Precision) : Standard (.float precision)
  | bool : Standard .bool
  | unit : Standard .unit
  | never : Standard .never
  | text : Standard .text
  | bytes : Standard .bytes
  | char : Standard Codec.char
  | integer : Standard Codec.integer
  | decimal : Standard Codec.decimal
  | seq (shape : SeqShape) {element : Ty} {codec : Codec element}
      (ordered : shape.order ≠ .insertion → element.Ordered) (standard : Standard codec) :
      Standard (.seq shape codec)
  | map (shape : MapShape) {key value : Ty} {keyCodec : Codec key} {valueCodec : Codec value}
      (ordered : key.Ordered) (standardKey : Standard keyCodec) (standardValue : Standard valueCodec) :
      Standard (.map shape keyCodec valueCodec)
  | option {value : Ty} {codec : Codec value} (standard : Standard codec) : Standard (.option codec)
  | pair {first second : Ty} {firstCodec : Codec first} {secondCodec : Codec second}
      (standardFirst : Standard firstCodec) (standardSecond : Standard secondCodec) :
      Standard (.pair firstCodec secondCodec)
  | triple {first second third : Ty} {firstCodec : Codec first} {secondCodec : Codec second}
      {thirdCodec : Codec third} (standardFirst : Standard firstCodec) (standardSecond : Standard secondCodec)
      (standardThird : Standard thirdCodec) : Standard (.triple firstCodec secondCodec thirdCodec)

/-- Standard codecs are for types whose sets and maps have elements and keys that can be ordered. -/
theorem Standard.formed {t : Ty} {codec : Codec t} (standard : codec.Standard) : t.Formed := by
  induction standard with
  | bytes => exact ⟨fun sorted => absurd rfl sorted, trivial⟩
  | seq shape ordered _ ih => exact ⟨ordered, ih⟩
  | map shape ordered _ _ ihk ihv => exact ⟨ordered, ihk, ihv⟩
  | option _ ih => exact ih
  | pair _ _ iha ihb => exact ⟨iha, ihb⟩
  | triple _ _ _ iha ihb ihc => exact ⟨iha, ihb, ihc⟩
  | _ => trivial

/-- Where equality of values is equality of encodings, the values have an order. -/
theorem Standard.ordered_of_consistent {t : Ty} {codec : Codec t} (standard : codec.Standard)
    (consistent : codec.equalityConsistent = true) : t.Ordered := by
  induction standard with
  | float => cases consistent
  | map => cases consistent
  | bytes => exact ⟨by decide, trivial⟩
  | seq shape _ _ ih =>
    obtain ⟨settled, consistent⟩ := Bool.and_eq_true_iff.mp consistent
    refine ⟨?_, ih consistent⟩
    rintro rfl
    exact bne_iff_ne.mp settled rfl
  | option _ ih => exact ih consistent
  | pair _ _ iha ihb =>
    obtain ⟨first, second⟩ := Bool.and_eq_true_iff.mp consistent
    exact ⟨iha first, ihb second⟩
  | triple _ _ _ iha ihb ihc =>
    obtain ⟨others, third⟩ := Bool.and_eq_true_iff.mp consistent
    obtain ⟨first, second⟩ := Bool.and_eq_true_iff.mp others
    exact ⟨iha first, ihb second, ihc third⟩
  | _ => trivial

end TypedWire.Codec

namespace TypedWire.Checklist

@[simp] theorem verdict_eq_ok_iff (list : Checklist) : list.verdict = .ok () ↔ list.reasons = [] := by
  unfold verdict
  by_cases clear : list.reasons = []
  · simp [clear]
  · simp [clear]

@[simp] theorem component_reasons_iff (label : String) (outcome : Verdict) (list : Checklist) :
    (list.component label outcome).reasons = [] ↔ list.reasons = [] ∧ outcome = .ok () := by
  cases outcome <;> simp [component]

@[simp] theorem reason_reasons_ne_nil (text : String) (list : Checklist) : (list.reason text).reasons ≠ [] := by
  simp [reason]

end TypedWire.Checklist

namespace TypedWire.Codec

variable {t k v : Ty}

theorem determinism_seq_iff {shape : SeqShape} {codec : Codec t} :
    (Codec.seq shape codec).determinism = .ok () ↔ shape.order ≠ .hashed ∧ codec.determinism = .ok () := by
  refine (Checklist.verdict_eq_ok_iff _).trans ?_
  by_cases hashed : shape.order = .hashed
  · simp [hashed]
  · simp [hashed]

theorem determinism_map {shape : MapShape} {keyCodec : Codec k} {valueCodec : Codec v} :
    (Codec.map shape keyCodec valueCodec).determinism ≠ .ok () := by
  refine (Checklist.verdict_eq_ok_iff _).not.mpr ?_
  simp

theorem determinism_option_iff {codec : Codec t} :
    (Codec.option codec).determinism = .ok () ↔ codec.determinism = .ok () := by
  refine (Checklist.verdict_eq_ok_iff _).trans ?_
  simp

theorem determinism_pair_iff {first : Codec t} {second : Codec k} :
    (Codec.pair first second).determinism = .ok () ↔ first.determinism = .ok () ∧ second.determinism = .ok () := by
  refine (Checklist.verdict_eq_ok_iff _).trans ?_
  simp

theorem determinism_triple_iff {first : Codec t} {second : Codec k} {third : Codec v} :
    (Codec.triple first second third).determinism = .ok () ↔
      first.determinism = .ok () ∧ second.determinism = .ok () ∧ third.determinism = .ok () := by
  refine (Checklist.verdict_eq_ok_iff _).trans ?_
  simp [and_assoc]

/-- A codec for which equality of values is equality of encodings writes equal values as equal bytes. -/
theorem determinism_of_consistent (codec : Codec t) (consistent : codec.equalityConsistent = true) :
    codec.determinism = .ok () := by
  induction codec with
  | compact => cases consistent
  | map => cases consistent
  | terse => cases consistent
  | derived name codec toBase fromBase ih => exact ih consistent
  | seq shape codec ih =>
    obtain ⟨settled, consistent⟩ := Bool.and_eq_true_iff.mp consistent
    exact determinism_seq_iff.mpr ⟨bne_iff_ne.mp settled, ih consistent⟩
  | option codec ih => exact determinism_option_iff.mpr (ih consistent)
  | pair first second iha ihb =>
    obtain ⟨one, two⟩ := Bool.and_eq_true_iff.mp consistent
    exact determinism_pair_iff.mpr ⟨iha one, ihb two⟩
  | triple first second third iha ihb ihc =>
    obtain ⟨others, three⟩ := Bool.and_eq_true_iff.mp consistent
    obtain ⟨one, two⟩ := Bool.and_eq_true_iff.mp others
    exact determinism_triple_iff.mpr ⟨iha one, ihb two, ihc three⟩
  | _ => rfl

end TypedWire.Codec
