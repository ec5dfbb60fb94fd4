import TypedWire.Codec.Derived
import TypedWire.Codec.Structure
import Mathlib.Data.List.Forall2

/-! Encoding a value and building its stand-in walk over the same parts in the same order and fail alike:
what a mapping says when it refuses lies at the root of both failures. -/

namespace TypedWire

/-! ### Lists of images -/

section Images

variable {α β : Type} {F : α → β → Prop} {a : List α} {p : List β}

theorem exists_image_of_mem (imageA : List.Forall₂ F a p) {x : α} (member : x ∈ a) : ∃ y ∈ p, F x y := by
  induction imageA with
  | nil => cases member
  | cons first _ ih =>
    rcases List.mem_cons.mp member with rfl | later
    · exact ⟨_, by simp, first⟩
    · obtain ⟨y, there, image⟩ := ih later
      exact ⟨y, List.mem_cons_of_mem _ there, image⟩

theorem exists_of_mem_images (imageA : List.Forall₂ F a p) {y : β} (member : y ∈ p) : ∃ x ∈ a, F x y :=
  exists_image_of_mem imageA.flip member

theorem images_imp {G : α → β → Prop} (imageA : List.Forall₂ F a p)
    (step : ∀ x ∈ a, ∀ y, F x y → G x y) : List.Forall₂ G a p := by
  induction imageA with
  | nil => exact .nil
  | cons first _ ih =>
    exact .cons (step _ (by simp) _ first) (ih fun x member => step x (List.mem_cons_of_mem _ member))

theorem exists_images (each : ∀ x ∈ a, ∃ y, F x y) : ∃ p, List.Forall₂ F a p := by
  induction a with
  | nil => exact ⟨[], .nil⟩
  | cons x a ih =>
    obtain ⟨y, first⟩ := each x (by simp)
    obtain ⟨p, later⟩ := ih fun z member => each z (List.mem_cons_of_mem _ member)
    exact ⟨y :: p, .cons first later⟩

end Images

/-! ### Results in sequence -/

section Results

variable {ε α β : Type}

theorem bind_eq_ok_iff {result : Except ε α} {next : α → Except ε β} {final : β} :
    (result >>= next) = .ok final ↔ ∃ value, result = .ok value ∧ next value = .ok final := by
  cases result with
  | error error => simp [bind, Except.bind]
  | ok value => simp [bind, Except.bind]

theorem map_eq_ok_iff {result : Except ε α} {f : α → β} {final : β} :
    result.map f = .ok final ↔ ∃ value, result = .ok value ∧ f value = final := by
  cases result with
  | error error => simp [Except.map]
  | ok value => simp [Except.map]

theorem mapM_eq_ok_iff {f : α → Except ε β} {elements : List α} {values : List β} :
    elements.mapM f = .ok values ↔ List.Forall₂ (fun x y => f x = .ok y) elements values := by
  induction elements generalizing values with
  | nil => cases values <;> simp [pure, Except.pure]
  | cons x rest ih =>
    simp only [List.mapM_cons, bind_eq_ok_iff, ih, pure, Except.pure, Except.ok.injEq, List.forall₂_cons_left_iff]
    constructor
    · rintro ⟨y, first, later, others, rfl⟩
      exact ⟨y, later, first, others, rfl⟩
    · rintro ⟨y, later, first, others, rfl⟩
      exact ⟨y, first, later, others, rfl⟩

/-- The error of a result that failed. -/
def failureOf : Except ε α → Option ε
  | .ok _ => none
  | .error error => some error

theorem failureOf_eq_none_iff {result : Except ε α} :
    failureOf result = none ↔ ∃ value, result = .ok value := by
  cases result <;> simp [failureOf]

theorem failureOf_bind (result : Except ε α) (next : α → Except ε β) :
    failureOf (result >>= next) = (failureOf result).or (match result with
      | .ok value => failureOf (next value)
      | .error _ => none) := by
  cases result <;> rfl

theorem failureOf_bind_pure (result : Except ε α) (f : α → β) :
    failureOf (result >>= fun value => pure (f value)) = failureOf result := by
  cases result <;> rfl

@[simp] theorem failureOf_map (result : Except ε α) (f : α → β) : failureOf (result.map f) = failureOf result := by
  cases result <;> rfl

end Results

/-- What ended two outputs is what ended the first, or else the second. -/
theorem Output.failure_andThen {α : Type} (first second : Output α) :
    (first.andThen second).failure = first.failure.or second.failure := by
  unfold Output.andThen
  cases failed : first.failure with
  | none => simp
  | some error => simp [failed]

/-! ### The bytes of emissions -/

namespace Emission

theorem toBytes_eq_ok_iff {emission : Emission} {bytes : List Byte} :
    emission.toBytes = .ok bytes ↔ emission.failure = none ∧ emission.bytes = bytes := by
  unfold toBytes
  cases failed : emission.failure with
  | none => simp
  | some error => simp

@[simp] theorem toBytes_done : toBytes .done = .ok [] := rfl

@[simp] theorem toBytes_raw (data : List Byte) : (raw data).toBytes = .ok data := by
  simp [toBytes, raw, Output.emit, bytes]

@[simp] theorem toBytes_fail (error : EncodeError) : toBytes (.fail error) = .error error := rfl

theorem toBytes_andThen_iff {first second : Emission} {bytes : List Byte} :
    toBytes (first.andThen second) = .ok bytes ↔
      ∃ front back, first.toBytes = .ok front ∧ second.toBytes = .ok back ∧ bytes = front ++ back := by
  simp only [toBytes_eq_ok_iff, Output.andThen]
  cases outcome : first.failure with
  | none => simp [Emission.bytes, eq_comm]
  | some error => simp [outcome]

theorem toBytes_labeled_iff {label : String} {emission : Emission} {bytes : List Byte} :
    (emission.labeled label).toBytes = .ok bytes ↔ emission.toBytes = .ok bytes := by
  simp [toBytes_eq_ok_iff, labeled, Emission.bytes, List.flatMap_map]

theorem toBytes_concat_iff {α : Type} {walk : α → Emission} {elements : List α} {bytes : List Byte} :
    toBytes (.concat walk elements) = .ok bytes ↔
      ∃ parts, List.Forall₂ (fun x part => (walk x).toBytes = .ok part) elements parts ∧ bytes = parts.flatten := by
  induction elements generalizing bytes with
  | nil => simp [eq_comm]
  | cons x rest ih =>
    rw [Output.concat_cons, toBytes_andThen_iff]
    constructor
    · rintro ⟨front, back, first, later, rfl⟩
      obtain ⟨parts, others, rfl⟩ := ih.mp later
      exact ⟨front :: parts, .cons first others, rfl⟩
    · rintro ⟨_, _ | ⟨first, others⟩, rfl⟩
      exact ⟨_, _, first, ih.mpr ⟨_, others, rfl⟩, rfl⟩

theorem failureOf_toBytes (emission : Emission) : failureOf emission.toBytes = emission.failure := by
  unfold toBytes
  cases emission.failure <;> rfl

theorem root_failure_labeled (label : String) (emission : Emission) :
    (emission.labeled label).failure.map EncodeError.root = emission.failure.map EncodeError.root := by
  rw [labeled, Option.map_map]
  rfl

end Emission

namespace Codec

/-! ### One step of each walk -/

section Steps

variable {t k v base target : Ty}

theorem encode_derived (name : String) (codec : Codec base) (toBase : target.Value → Except Refusal base.Value)
    (fromBase : base.Value → Except String target.Value) (value : target.Value) :
    (Codec.derived name codec toBase fromBase).encode value = match toBase value with
      | .ok inner => codec.encode inner
      | .error refusal => .fail (.mapping refusal) := rfl

theorem encode_pair (first : Codec t) (second : Codec k) (value : t.Value × k.Value) :
    (Codec.pair first second).encode value =
      (Emission.labeled "first" (first.encode value.1)).andThen
        (Emission.labeled "second" (second.encode value.2)) := rfl

theorem encode_triple (first : Codec t) (second : Codec k) (third : Codec v)
    (value : t.Value × k.Value × v.Value) :
    (Codec.triple first second third).encode value =
      (Emission.labeled "first" (first.encode value.1)).andThen
        ((Emission.labeled "second" (second.encode value.2.1)).andThen
          (Emission.labeled "third" (third.encode value.2.2))) := rfl

theorem structural_derived (name : String) (codec : Codec base)
    (toBase : target.Value → Except Refusal base.Value) (fromBase : base.Value → Except String target.Value)
    (value : target.Value) :
    (Codec.derived name codec toBase fromBase).structural value = match toBase value with
      | .ok inner => codec.structural inner
      | .error refusal => .error (.mapping refusal) := rfl

theorem structural_pair (first : Codec t) (second : Codec k) (value : t.Value × k.Value) :
    (Codec.pair first second).structural value = (do
      let x ← first.structural value.1
      let y ← second.structural value.2
      return .tuple [x, y]) := rfl

theorem structural_triple (first : Codec t) (second : Codec k) (third : Codec v)
    (value : t.Value × k.Value × v.Value) :
    (Codec.triple first second third).structural value = (do
      let x ← first.structural value.1
      let y ← second.structural value.2.1
      let z ← third.structural value.2.2
      return .tuple [x, y, z]) := rfl

end Steps

/-! ### Encodings taken apart -/

section Bytes

variable {t k v : Ty}

theorem toBytes_int (s : Sign) (w : Width) (value : Word w) :
    (Codec.int s w).toBytes value = .ok (bigEndian w.bytes value.toNat) := Emission.toBytes_raw _

theorem toBytes_float (p : Precision) (value : Word p.width) :
    (Codec.float p).toBytes value = .ok (bigEndian p.width.bytes value.toNat) := Emission.toBytes_raw _

theorem toBytes_bool (value : Bool) : Codec.bool.toBytes value = .ok [Emission.flagByte value] :=
  Emission.toBytes_raw _

theorem toBytes_payload (data : List Byte) :
    (Emission.payload data).toBytes = .ok (Varint.encode data.length ++ data) :=
  Emission.toBytes_andThen_iff.mpr ⟨_, _, Emission.toBytes_raw _, Emission.toBytes_raw _, rfl⟩

theorem toBytes_derived_iff {base target : Ty} {name : String} {codec : Codec base}
    {toBase : target.Value → Except Refusal base.Value} {fromBase : base.Value → Except String target.Value}
    {value : target.Value} {bytes : List Byte} :
    (Codec.derived name codec toBase fromBase).toBytes value = .ok bytes ↔
      ∃ inner, toBase value = .ok inner ∧ codec.toBytes inner = .ok bytes := by
  rw [toBytes, encode_derived]
  cases toBase value with
  | error refusal => simp
  | ok inner => simp [toBytes]

theorem decimalParts_of_normal {d n : Decimal} (normal : d.normal = some n) :
    decimalParts d = .ok (n.scale, n.digits) := by rw [decimalParts, normal]

theorem toBytes_decimal_iff {d : Decimal} {bytes : List Byte} :
    Codec.decimal.toBytes d = .ok bytes ↔
      ∃ n, d.normal = some n ∧ (Codec.pair (.int .signed .eight) integer).toBytes (n.scale, n.digits) = .ok bytes := by
  rw [Codec.decimal, toBytes_derived_iff, decimalParts]
  cases d.normal with
  | none => simp
  | some n => simp

theorem toBytes_seq_iff {shape : SeqShape} {codec : Codec t} {elements : List t.Value} {bytes : List Byte} :
    (Codec.seq shape codec).toBytes elements = .ok bytes ↔
      ∃ parts, List.Forall₂ (fun x part => codec.toBytes x = .ok part) elements parts ∧
        bytes = Varint.encode elements.length ++ parts.flatten := by
  refine Emission.toBytes_andThen_iff.trans ?_
  constructor
  · rintro ⟨front, back, counted, rest, rfl⟩
    cases (Emission.toBytes_raw _).symm.trans counted
    obtain ⟨parts, placed, rfl⟩ := Emission.toBytes_concat_iff.mp rest
    exact ⟨parts, placed, rfl⟩
  · rintro ⟨parts, placed, rfl⟩
    exact ⟨_, _, Emission.toBytes_raw _, Emission.toBytes_concat_iff.mpr ⟨parts, placed, rfl⟩, rfl⟩

theorem toBytes_map_iff {shape : MapShape} {keyCodec : Codec k} {valueCodec : Codec v}
    {entries : List (k.Value × v.Value)} {bytes : List Byte} :
    (Codec.map shape keyCodec valueCodec).toBytes entries = .ok bytes ↔
      ∃ parts, List.Forall₂ (fun entry part => ∃ front back, keyCodec.toBytes entry.1 = .ok front ∧
        valueCodec.toBytes entry.2 = .ok back ∧ part = front ++ back) entries parts ∧
        bytes = Varint.encode entries.length ++ parts.flatten := by
  refine Emission.toBytes_andThen_iff.trans ?_
  simp only [Emission.toBytes_concat_iff, Emission.toBytes_andThen_iff, Emission.toBytes_labeled_iff]
  constructor
  · rintro ⟨front, back, counted, ⟨parts, placed, rfl⟩, rfl⟩
    cases (Emission.toBytes_raw _).symm.trans counted
    exact ⟨parts, placed, rfl⟩
  · rintro ⟨parts, placed, rfl⟩
    exact ⟨_, _, Emission.toBytes_raw _, ⟨parts, placed, rfl⟩, rfl⟩

theorem toBytes_none (codec : Codec t) : (Codec.option codec).toBytes none = .ok [0] := Emission.toBytes_raw _

theorem toBytes_some_iff {codec : Codec t} {value : t.Value} {bytes : List Byte} :
    (Codec.option codec).toBytes (some value) = .ok bytes ↔
      ∃ back, codec.toBytes value = .ok back ∧ bytes = 1 :: back := by
  refine Emission.toBytes_andThen_iff.trans ?_
  simp only [Emission.toBytes_labeled_iff]
  constructor
  · rintro ⟨front, back, flagged, rest, rfl⟩
    cases (Emission.toBytes_raw _).symm.trans flagged
    exact ⟨back, rest, rfl⟩
  · rintro ⟨back, rest, rfl⟩
    exact ⟨[1], back, Emission.toBytes_raw _, rest, rfl⟩

theorem toBytes_pair_iff {first : Codec t} {second : Codec k} {value : t.Value × k.Value} {bytes : List Byte} :
    (Codec.pair first second).toBytes value = .ok bytes ↔
      ∃ front back, first.toBytes value.1 = .ok front ∧ second.toBytes value.2 = .ok back ∧
        bytes = front ++ back := by
  refine Emission.toBytes_andThen_iff.trans ?_
  simp only [Emission.toBytes_labeled_iff]
  rfl

theorem toBytes_triple_iff {first : Codec t} {second : Codec k} {third : Codec v}
    {value : t.Value × k.Value × v.Value} {bytes : List Byte} :
    (Codec.triple first second third).toBytes value = .ok bytes ↔
      ∃ front middle back, first.toBytes value.1 = .ok front ∧ second.toBytes value.2.1 = .ok middle ∧
        third.toBytes value.2.2 = .ok back ∧ bytes = front ++ (middle ++ back) := by
  refine Emission.toBytes_andThen_iff.trans ?_
  simp only [Emission.toBytes_andThen_iff, Emission.toBytes_labeled_iff]
  constructor
  · rintro ⟨front, _, one, ⟨middle, back, two, three, rfl⟩, rfl⟩
    exact ⟨front, middle, back, one, two, three, rfl⟩
  · rintro ⟨front, middle, back, one, two, three, rfl⟩
    exact ⟨front, _, one, ⟨middle, back, two, three, rfl⟩, rfl⟩

end Bytes

/-! ### Stand-ins taken apart -/

section Structure

variable {t k v : Ty} {stand : StructuralValue}

theorem structural_derived_iff {base target : Ty} {name : String} {codec : Codec base}
    {toBase : target.Value → Except Refusal base.Value} {fromBase : base.Value → Except String target.Value}
    {value : target.Value} :
    (Codec.derived name codec toBase fromBase).structural value = .ok stand ↔
      ∃ inner, toBase value = .ok inner ∧ codec.structural inner = .ok stand := by
  rw [structural_derived]
  cases toBase value with
  | error refusal => simp
  | ok inner => simp

theorem structural_seq_iff {shape : SeqShape} {codec : Codec t} {elements : List t.Value} :
    (Codec.seq shape codec).structural elements = .ok stand ↔
      ∃ parts, List.Forall₂ (fun x part => codec.structural x = .ok part) elements parts ∧
        stand = if shape.order = .hashed then .setOf parts else .seq parts := by
  refine bind_eq_ok_iff.trans ?_
  simp only [mapM_eq_ok_iff, pure, Except.pure, Except.ok.injEq, eq_comm (b := stand)]

theorem structural_map_iff {shape : MapShape} {keyCodec : Codec k} {valueCodec : Codec v}
    {entries : List (k.Value × v.Value)} :
    (Codec.map shape keyCodec valueCodec).structural entries = .ok stand ↔
      ∃ parts, List.Forall₂ (fun entry part => keyCodec.structural entry.1 = .ok part.1 ∧
        valueCodec.structural entry.2 = .ok part.2) entries parts ∧ stand = .mapOf parts := by
  have entry : ∀ (p : k.Value × v.Value) (part : StructuralValue × StructuralValue),
      (∃ key, keyCodec.structural p.1 = .ok key ∧ ∃ value, valueCodec.structural p.2 = .ok value ∧
        (key, value) = part) ↔
        keyCodec.structural p.1 = .ok part.1 ∧ valueCodec.structural p.2 = .ok part.2 := by
    rintro p ⟨key, value⟩
    simp
  refine bind_eq_ok_iff.trans ?_
  simp only [mapM_eq_ok_iff, bind_eq_ok_iff, pure, Except.pure, Except.ok.injEq, entry, eq_comm (b := stand)]

theorem structural_some_iff {codec : Codec t} {value : t.Value} :
    (Codec.option codec).structural (some value) = .ok stand ↔
      ∃ inner, codec.structural value = .ok inner ∧ stand = .present inner := by
  refine map_eq_ok_iff.trans ?_
  simp only [eq_comm (b := stand)]

theorem structural_pair_iff {first : Codec t} {second : Codec k} {value : t.Value × k.Value} :
    (Codec.pair first second).structural value = .ok stand ↔
      ∃ x y, first.structural value.1 = .ok x ∧ second.structural value.2 = .ok y ∧ stand = .tuple [x, y] := by
  refine bind_eq_ok_iff.trans ?_
  simp only [bind_eq_ok_iff, pure, Except.pure, Except.ok.injEq, eq_comm (b := stand), exists_and_left]

theorem structural_triple_iff {first : Codec t} {second : Codec k} {third : Codec v}
    {value : t.Value × k.Value × v.Value} :
    (Codec.triple first second third).structural value = .ok stand ↔
      ∃ x y z, first.structural value.1 = .ok x ∧ second.structural value.2.1 = .ok y ∧
        third.structural value.2.2 = .ok z ∧ stand = .tuple [x, y, z] := by
  refine bind_eq_ok_iff.trans ?_
  simp only [bind_eq_ok_iff, pure, Except.pure, Except.ok.injEq, eq_comm (b := stand), exists_and_left]

end Structure

/-! ### Failing alike -/

private theorem root_failure_concat {α β : Type} {walk : α → Emission} {f : α → Except EncodeError β}
    {elements : List α}
    (agree : ∀ x ∈ elements, (walk x).failure.map EncodeError.root = (failureOf (f x)).map EncodeError.root) :
    (Output.concat walk elements).failure.map EncodeError.root =
      (failureOf (elements.mapM f)).map EncodeError.root := by
  induction elements with
  | nil => rfl
  | cons x rest ih =>
    have onward := ih fun y member => agree y (List.mem_cons_of_mem _ member)
    rw [Output.concat_cons, Output.failure_andThen, List.mapM_cons, Option.map_or, agree x (by simp), onward,
      failureOf_bind]
    cases f x with
    | error error => rfl
    | ok y =>
      simp only [failureOf_bind]
      cases rest.mapM f <;> rfl

/-- Encoding a value fails exactly if building its stand-in does, and for the same reason. -/
theorem root_failure_encode {t : Ty} (codec : Codec t) (v : t.Value) :
    (codec.encode v).failure.map EncodeError.root = (failureOf (codec.structural v)).map EncodeError.root := by
  induction codec with
  | never => exact v.elim
  | compact name objection => rfl
  | derived name codec toBase fromBase ih =>
    rw [encode_derived, structural_derived]
    cases toBase v with
    | ok inner => exact ih inner
    | error refusal => rfl
  | terse name objection codec ih =>
    refine congrArg (Option.map EncodeError.root) (Eq.trans ?_ (failureOf_map (codec.toBytes v) _).symm)
    exact (Emission.failureOf_toBytes _).symm
  | seq shape codec ih =>
    refine (root_failure_concat fun x _ => ih x).trans ?_
    exact congrArg _ (failureOf_bind_pure _ _).symm
  | map shape keyCodec valueCodec ihk ihv =>
    have entry : ∀ p : _ × _, (Output.andThen (Emission.labeled "key" (keyCodec.encode p.1))
        (Emission.labeled "value" (valueCodec.encode p.2))).failure.map EncodeError.root =
        (failureOf (do
          let key ← keyCodec.structural p.1
          let value ← valueCodec.structural p.2
          return (key, value))).map EncodeError.root := by
      intro p
      rw [Output.failure_andThen, Option.map_or, Emission.root_failure_labeled,
        Emission.root_failure_labeled, ihk, ihv]
      cases keyCodec.structural p.1 <;> cases valueCodec.structural p.2 <;> rfl
    refine (root_failure_concat fun p _ => entry p).trans ?_
    exact congrArg _ (failureOf_bind_pure _ _).symm
  | option codec ih =>
    cases v with
    | none => rfl
    | some inner =>
      refine (Emission.root_failure_labeled "value" (codec.encode inner)).trans ?_
      exact (ih inner).trans (congrArg _ (failureOf_map _ _).symm)
  | pair first second iha ihb =>
    rw [encode_pair, structural_pair, Output.failure_andThen, Option.map_or, Emission.root_failure_labeled,
      Emission.root_failure_labeled, iha, ihb]
    cases first.structural v.1 <;> cases second.structural v.2 <;> rfl
  | triple first second third iha ihb ihc =>
    rw [encode_triple, structural_triple, Output.failure_andThen, Output.failure_andThen, Option.map_or,
      Option.map_or, Emission.root_failure_labeled, Emission.root_failure_labeled, Emission.root_failure_labeled,
      iha, ihb, ihc]
    cases first.structural v.1 <;> cases second.structural v.2.1 <;> cases third.structural v.2.2 <;> rfl
  | _ => rfl

/-- A value has an encoding exactly if it has a stand-in. -/
theorem toBytes_ok_iff {t : Ty} (codec : Codec t) (v : t.Value) :
    (∃ bytes, codec.toBytes v = .ok bytes) ↔ ∃ stand, codec.structural v = .ok stand := by
  have alike : (codec.encode v).failure = none ↔ failureOf (codec.structural v) = none := by
    rw [← Option.map_eq_none_iff (f := EncodeError.root), root_failure_encode, Option.map_eq_none_iff]
  rw [← @failureOf_eq_none_iff _ _ (codec.structural v), ← alike]
  simp [toBytes, Emission.toBytes_eq_ok_iff]

end Codec
end TypedWire
