import TypedWire.Codec.Size
import TypedWire.Proofs.Encoding
import TypedWire.Proofs.LengthPrefix

namespace TypedWire

/-- A counter that stops at its greatest value holds the sum, or that value if the sum is greater. -/
theorem foldl_saturating {α : Type} (weigh : α → Nat) {limit start : Nat} (below : start ≤ limit) (items : List α) :
    items.foldl (fun count item => min (count + weigh item) limit) start =
      min (start + (items.map weigh).sum) limit := by
  induction items generalizing start with
  | nil => simp [below]
  | cons item rest ih =>
    rw [List.foldl_cons, ih (Nat.min_le_right _ _), List.map_cons, List.sum_cons]
    omega

theorem Emission.length_bytes (emission : Emission) :
    emission.bytes.length = (emission.items.map fun write => write.data.length).sum := by
  rw [bytes, List.length_flatMap]

theorem Emission.size_eq_ok_iff {emission : Emission} {count : Nat} :
    emission.size = .ok count ↔ emission.failure = none ∧ min emission.bytes.length counterLimit = count := by
  have counted := foldl_saturating (fun write : Write => write.data.length) (Nat.zero_le counterLimit) emission.items
  rw [Nat.zero_add, ← length_bytes] at counted
  unfold size
  cases emission.failure with
  | none => simp [counted]
  | some error => simp

theorem SizeEstimate.ofUpdates_eq (updates : List Nat) :
    ofUpdates updates = ⟨min updates.sum Emission.counterLimit, false⟩ := by
  suffices general : ∀ start ≤ Emission.counterLimit,
      updates.foldl (fun estimate bytes => estimate.update bytes) (⟨start, false⟩ : SizeEstimate) =
        ⟨min (start + updates.sum) Emission.counterLimit, false⟩ by
    simpa [ofUpdates] using general 0 (Nat.zero_le _)
  induction updates with
  | nil =>
    intro start below
    simp [below]
  | cons bytes rest ih =>
    intro start below
    rw [List.foldl_cons, update, ih _ (Nat.min_le_right _ _), List.sum_cons]
    simp only [SizeEstimate.mk.injEq, and_true]
    omega

/-- A walk gives off the sizes of what an emission writes, and fails where the emission does. -/
structure Measures (walk : Output Nat) (emission : Emission) : Prop where
  fails : walk.failure.map EncodeError.root = emission.failure.map EncodeError.root
  sums : emission.failure = none → emission.bytes.length ≤ Emission.counterLimit →
    walk.items.sum = emission.bytes.length

namespace Measures

variable {α : Type} {walk walk' : Output Nat} {emission emission' : Emission}

theorem failure_eq_none_iff (measures : Measures walk emission) : walk.failure = none ↔ emission.failure = none := by
  rw [← Option.map_eq_none_iff (f := EncodeError.root), measures.fails, Option.map_eq_none_iff]

theorem done : Measures .done .done := ⟨rfl, fun _ _ => rfl⟩

theorem fail (error : EncodeError) : Measures (.fail error) (.fail error) := ⟨rfl, fun complete => nomatch complete⟩

theorem raw {size : Nat} {data : List Byte} (length : data.length = size) :
    Measures (.emit size) (Emission.raw data) := by
  refine ⟨rfl, fun _ _ => ?_⟩
  simp [Emission.raw, Output.emit, Emission.bytes, length]

theorem andThen (first : Measures walk emission) (second : Measures walk' emission') :
    Measures (walk.andThen walk') (emission.andThen emission') := by
  refine ⟨?_, fun complete within => ?_⟩
  · rw [Output.failure_andThen, Output.failure_andThen, Option.map_or, Option.map_or, first.fails, second.fails]
  · rw [Output.failure_andThen, Option.or_eq_none_iff] at complete
    obtain ⟨completeFirst, completeSecond⟩ := complete
    have walked := first.failure_eq_none_iff.mpr completeFirst
    simp only [Output.andThen, completeFirst, walked, Emission.bytes, List.flatMap_append,
      List.length_append, List.sum_append] at within ⊢
    have front := first.sums completeFirst (Nat.le_trans (Nat.le_add_right _ _) within)
    have back := second.sums completeSecond (Nat.le_trans (Nat.le_add_left _ _) within)
    rw [front, back]
    rfl

theorem labeled (label : String) (measures : Measures walk emission) : Measures walk (emission.labeled label) := by
  refine ⟨measures.fails.trans (Emission.root_failure_labeled label emission).symm, fun complete within => ?_⟩
  have same : (emission.labeled label).bytes = emission.bytes := by
    simp [Emission.labeled, Emission.bytes, List.flatMap_map]
  rw [same] at within ⊢
  exact measures.sums (Option.map_eq_none_iff.mp complete) within

theorem concat {sizes : α → Output Nat} {walks : α → Emission} (elements : List α)
    (each : ∀ x, Measures (sizes x) (walks x)) : Measures (.concat sizes elements) (.concat walks elements) := by
  induction elements with
  | nil => exact done
  | cons x rest ih => exact (each x).andThen ih

/-- A payload is observed in one step and written in two. -/
theorem payload (data : List Byte) : Measures (.emit (Codec.payloadSize data.length)) (Emission.payload data) := by
  refine ⟨rfl, fun _ _ => ?_⟩
  simp [Emission.payload, Emission.lengthPrefix, Emission.varint, Emission.raw, Output.andThen, Output.emit,
    Emission.bytes, Codec.payloadSize, Varint.length_encode]

/-- What is found by encoding is the size of the encoding. -/
theorem size (emission : Emission) : Measures (.ofExcept emission.size .emit) emission := by
  cases complete : emission.failure with
  | some error =>
    have failed : emission.size = .error error := by simp [Emission.size, complete]
    rw [failed]
    exact ⟨congrArg _ complete.symm, fun succeeded => nomatch complete.symm.trans succeeded⟩
  | none =>
    rw [Emission.size_eq_ok_iff.mpr ⟨complete, rfl⟩]
    refine ⟨congrArg _ complete.symm, fun _ within => ?_⟩
    rw [Nat.min_eq_left within]
    exact List.sum_singleton

end Measures

namespace Codec

/-- Observing a value measures its encoding. -/
theorem measures_observe {t : Ty} (codec : Codec t) (v : t.Value) : Measures (codec.observe v) (codec.encode v) := by
  induction codec with
  | int sign width => exact .raw (length_bigEndian _ _)
  | float p => exact .raw (length_bigEndian _ _)
  | bool => exact .raw rfl
  | unit => exact .done
  | never => exact v.elim
  | text => exact .payload _
  | bytes => exact .payload _
  | compact name objection => exact .size _
  | derived name codec toBase fromBase ih =>
    rw [encode_derived, observe]
    cases toBase v with
    | ok inner => exact ih inner
    | error refusal => exact .fail _
  | terse name objection codec ih => exact .size _
  | seq shape codec ih => exact (Measures.raw (Varint.length_encode _)).andThen (.concat _ ih)
  | map shape keyCodec valueCodec ihk ihv =>
    refine (Measures.raw (Varint.length_encode _)).andThen (.concat _ fun entry => ?_)
    exact ((ihk entry.1).labeled "key").andThen ((ihv entry.2).labeled "value")
  | option codec ih =>
    cases v with
    | none => exact .raw rfl
    | some inner =>
      have flagged : Measures (.emit 1) (Emission.flag true) := .raw rfl
      exact flagged.andThen ((ih inner).labeled "value")
  | pair first second iha ihb => exact ((iha v.1).labeled "first").andThen ((ihb v.2).labeled "second")
  | triple first second third iha ihb ihc =>
    exact ((iha v.1).labeled "first").andThen (((ihb v.2.1).labeled "second").andThen ((ihc v.2.2).labeled "third"))

/-- What the mappings inside a value say when they refuse, in the order of encoding. -/
def refusals : {t : Ty} → Codec t → t.Value → List Refusal
  | _, .derived _ codec toBase _, v =>
    match toBase v with
    | .ok base => codec.refusals base
    | .error refusal => [refusal]
  | _, .terse _ _ codec, v => codec.refusals v
  | _, .seq _ codec, elements => elements.flatMap codec.refusals
  | _, .map _ k v, entries => entries.flatMap fun entry => k.refusals entry.1 ++ v.refusals entry.2
  | _, .option _, none => []
  | _, .option codec, some inner => codec.refusals inner
  | _, .pair a b, v => a.refusals v.1 ++ b.refusals v.2
  | _, .triple a b c, v => a.refusals v.1 ++ (b.refusals v.2.1 ++ c.refusals v.2.2)
  | _, _, _ => []

/-- The reason that the first of some refusals gives. -/
def firstReason (refusals : List Refusal) : Option EncodeError := refusals.head?.map .mapping

theorem firstReason_append (front back : List Refusal) :
    firstReason (front ++ back) = (firstReason front).or (firstReason back) := by
  rw [firstReason, List.head?_append, Option.map_or]
  rfl

private theorem root_failure_concat_refusals {α : Type} {walk : α → Emission} {refuse : α → List Refusal}
    (elements : List α) (each : ∀ x, (walk x).failure.map EncodeError.root = firstReason (refuse x)) :
    (Output.concat walk elements).failure.map EncodeError.root = firstReason (elements.flatMap refuse) := by
  induction elements with
  | nil => rfl
  | cons x rest ih =>
    rw [Output.concat_cons, Output.failure_andThen, Option.map_or, each, ih, List.flatMap_cons, firstReason_append]

/-- Encoding fails at the first refusal. -/
theorem root_failure_encode_eq {t : Ty} (codec : Codec t) (v : t.Value) :
    (codec.encode v).failure.map EncodeError.root = firstReason (codec.refusals v) := by
  induction codec with
  | never => exact v.elim
  | derived name codec toBase fromBase ih =>
    rw [encode_derived, refusals]
    cases toBase v with
    | ok inner => exact ih inner
    | error refusal => rfl
  | terse name objection codec ih => exact ih v
  | seq shape codec ih => exact root_failure_concat_refusals v ih
  | map shape keyCodec valueCodec ihk ihv =>
    refine root_failure_concat_refusals v fun entry => ?_
    rw [Output.failure_andThen, Option.map_or, Emission.root_failure_labeled, Emission.root_failure_labeled,
      ihk, ihv, firstReason_append]
  | option codec ih =>
    cases v with
    | none => rfl
    | some inner => exact (Emission.root_failure_labeled "value" _).trans (ih inner)
  | pair first second iha ihb =>
    rw [encode_pair, Output.failure_andThen, Option.map_or, Emission.root_failure_labeled,
      Emission.root_failure_labeled, iha, ihb, refusals, firstReason_append]
  | triple first second third iha ihb ihc =>
    rw [encode_triple, Output.failure_andThen, Output.failure_andThen, Option.map_or, Option.map_or,
      Emission.root_failure_labeled, Emission.root_failure_labeled, Emission.root_failure_labeled, iha, ihb, ihc,
      refusals, firstReason_append, firstReason_append]
  | _ => rfl

private theorem root_of_map_root {failure : Option EncodeError} {reason : EncodeError}
    (root : failure.map EncodeError.root = some reason) : ∃ error, failure = some error ∧ error.root = reason :=
  Option.map_eq_some_iff.mp root

/-- Encoding a value, counting its bytes, estimating its size and building its stand-in all succeed or all fail.
If no mapping refuses, the sizes observed add up to the length of the encoding, and so do the estimate and the
count, as long as a counter can hold it. Otherwise all fail for the reason that the first refusal gives, and
encoding and counting with the same error. -/
theorem size_estimate_exact {t : Ty} (codec : Codec t) (v : t.Value) :
    match codec.refusals v with
    | [] => ∃ bytes size estimate stand, codec.toBytes v = .ok bytes ∧ codec.encodedSize v = .ok size ∧
        codec.estimate v = .ok estimate ∧ codec.structural v = .ok stand ∧ (codec.observe v).failure = none ∧
        (bytes.length ≤ Emission.counterLimit →
          (codec.observe v).items.sum = bytes.length ∧ estimate.total = bytes.length ∧ size = bytes.length)
    | refusal :: _ => ∃ error estimating standing, codec.toBytes v = .error error ∧ codec.encodedSize v = .error error ∧
        codec.estimate v = .error estimating ∧ codec.structural v = .error standing ∧
        error.root = .mapping refusal ∧ estimating.root = .mapping refusal ∧ standing.root = .mapping refusal := by
  have measures := measures_observe codec v
  have encoding := root_failure_encode_eq codec v
  have observing := measures.fails.trans encoding
  have standing := (root_failure_encode codec v).symm.trans encoding
  cases refused : codec.refusals v with
  | nil =>
    rw [refused] at encoding standing
    have complete := Option.map_eq_none_iff.mp encoding
    have observed := measures.failure_eq_none_iff.mpr complete
    obtain ⟨stand, stands⟩ := failureOf_eq_none_iff.mp (Option.map_eq_none_iff.mp standing)
    have estimated : codec.estimate v =
        .ok ⟨min (codec.observe v).items.sum Emission.counterLimit, false⟩ := by
      rw [← SizeEstimate.ofUpdates_eq]
      simp [estimate, observed]
    refine ⟨(codec.encode v).bytes, _, _, stand, Emission.toBytes_eq_ok_iff.mpr ⟨complete, rfl⟩,
      Emission.size_eq_ok_iff.mpr ⟨complete, rfl⟩, estimated, stands, observed, fun within => ?_⟩
    have sum := measures.sums complete within
    refine ⟨sum, ?_, Nat.min_eq_left within⟩
    rw [sum]
    exact Nat.min_eq_left within
  | cons refusal rest =>
    rw [refused] at encoding observing standing
    obtain ⟨error, failed, root⟩ := root_of_map_root encoding
    obtain ⟨estimating, failed', root'⟩ := root_of_map_root observing
    obtain ⟨error'', failed'', root''⟩ := root_of_map_root standing
    refine ⟨error, estimating, error'', ?_, ?_, ?_, ?_, root, root', root''⟩
    · simp [toBytes, Emission.toBytes, failed]
    · simp [encodedSize, Emission.size, failed]
    · simp [estimate, failed']
    · cases stands : codec.structural v with
      | ok stand => simp [failureOf, stands] at failed''
      | error other =>
        rw [stands] at failed''
        exact congrArg _ (Option.some.inj failed'')

end Codec
end TypedWire
