import TypedWire.Codec.Encode
import TypedWire.Proofs.DecoderLaws
import TypedWire.Proofs.Finding
import TypedWire.Proofs.Reservations

namespace TypedWire

/-- Where no two members are alike, a member is what is found first of its like. -/
theorem mem_iff_find? {α : Type} {same : α → α → Bool} (reflexive : ∀ x, same x x = true) {elements : List α}
    (unique : ∀ x ∈ elements, ∀ y ∈ elements, same x y = true → x = y) (x : α) :
    x ∈ elements ↔ elements.find? (same x) = some x := by
  refine ⟨fun member => ?_, List.mem_of_find?_eq_some⟩
  cases found : elements.find? (same x) with
  | none => exact absurd (reflexive x) (List.find?_eq_none.mp found x member)
  | some y => rw [unique x member y (List.mem_of_find?_eq_some found) (List.find?_some found)]

theorem Decoder.snd_read_gathered {t : Ty} (shape : SeqShape) (elements : List t.Value) (source : Source) :
    ((gathered shape t elements).read source).2 = source := by
  unfold gathered
  split <;> rfl

namespace SeqShape

variable {t : Ty}

/-- What comes of giving elements to a container of the shape, one after the other. -/
def Collects (shape : SeqShape) (t : Ty) (elements : List t.Value)
    (result : Except DecodeError (List t.Value)) : Prop :=
  match shape with
  | .array size =>
    if elements.length = size then result = .ok elements
    else result = .error (.elementCount size elements.length)
  | .sortedSet | .hashSet => ∃ set, result = .ok set ∧ shape.Holds t set ∧
      ∀ x, x ∈ set ↔ elements.find? (fun y => t.order x y == .eq) = some x
  | _ => result = .ok elements

/-- What a hash set holds is what is found first of its class. -/
theorem mem_iff_find?_of_distinct (ordered : t.Ordered) {set : List t.Value} (holds : SeqShape.hashSet.Holds t set)
    (x : t.Value) : x ∈ set ↔ set.find? (t.equal x) = some x := by
  have apart : set.Pairwise fun x y => t.equal x y = true → x = y :=
    holds.imp fun different equal => by simp [different] at equal
  have apart' : set.Pairwise (flip fun x y => t.equal x y = true → x = y) :=
    holds.imp fun different equal => by simp [Ty.equal_comm ordered, different] at equal
  refine mem_iff_find? (Ty.equivalence_equal ordered).refl ?_ x
  exact fun _ member _ member' => apart.forall_of_forall_of_flip (fun _ _ _ => rfl) apart' member member'

theorem mem_iff_find?_of_increasing {set : List t.Value} (holds : SeqShape.sortedSet.Holds t set) (x : t.Value) :
    x ∈ set ↔ set.find? (fun y => t.order x y == .eq) = some x := by
  refine @mem_iff_find? _ (fun x y => t.order x y == .eq) (fun x => by simp [t.order_self]) _ ?_ x
  exact fun x member y member' same => Sorted.Increasing.eq_of_order holds member member' (by simpa using same)

theorem collects_gathered {shape : SeqShape} (ordered : shape = .hashSet → t.Ordered) (elements : List t.Value)
    (source : Source) : shape.Collects t elements ((Decoder.gathered shape t elements).read source).1 := by
  cases shape with
  | array size =>
    unfold Collects Decoder.gathered gather
    by_cases sized : elements.length = size
    · simp [sized]
    · simp [sized]
  | sortedSet =>
    have holds : SeqShape.sortedSet.Holds t (elements.foldl (fun set x => Sorted.insert t.order x set) []) :=
      Sorted.foldl_insert_is_increasing elements
    refine ⟨_, rfl, holds, fun x => ?_⟩
    rw [mem_iff_find?_of_increasing holds, Sorted.find?_foldl_insert]
  | hashSet =>
    have ordered := ordered rfl
    have holds : SeqShape.hashSet.Holds t (elements.foldl (fun set x => Hashed.insert t.equal x set) []) :=
      holds_of_gather (fun _ => ordered) rfl
    refine ⟨_, rfl, holds, fun x => ?_⟩
    have alike : t.equal x = fun y => t.order x y == .eq := by
      funext y
      rw [Bool.eq_iff_iff, Ty.equal_iff_order t ordered, beq_iff_eq]
    rw [mem_iff_find?_of_distinct ordered holds, Hashed.find?_foldl_insert (Ty.equivalence_equal ordered), alike]
  | _ => exact rfl

end SeqShape

namespace Codec

variable {t : Ty}

/-- A container is read as a list is, which then fills it. -/
theorem decode_seq (shape : SeqShape) (codec : Codec t) :
    (Codec.seq shape codec).decode = (Codec.seq .vector codec).decode >>= Decoder.gathered shape t := by
  have kept (elements : List t.Value) : Decoder.gathered .vector t elements = pure elements := rfl
  simp only [decode, kept, bind_assoc, pure_bind]

/-- Every shape of sequence does what lists do. Where reading a list fails, reading a container fails in the same way;
where it gives elements, the container takes the same bytes and is what comes of giving it these. This is so for what
returns: no shape does where an element does not, and each does not where there is no room for what it asks for in
advance. A container is written as the list of what it yields, so that sorted sets with the same elements are written
alike. -/
theorem shapes_refine_lists (codec : Codec t) :
    (∀ shape : SeqShape, (shape = .hashSet → t.Ordered) → ∀ source : Source,
      match (Codec.seq .vector codec).read source with
      | (.error error, after) => (Codec.seq shape codec).read source = (.error error, after)
      | (.ok elements, after) => ((Codec.seq shape codec).read source).2 = after ∧
          shape.Collects t elements ((Codec.seq shape codec).read source).1) ∧
    (∀ (layout : Layout) (shape : SeqShape) (source : Source),
      Run.ComesTo ((Codec.seq shape codec).read source)
        (¬Run.Granted (layout.elements shape t) source ∨ Run.Stuck (codec.run layout) source)
        (((Codec.seq shape codec).run layout).outcome source)) ∧
    (∀ (shape : SeqShape) (elements : List t.Value) (sink : Sink),
      (Codec.seq shape codec).write elements sink = (Codec.seq .vector codec).write elements sink) ∧
    ∀ a b : List t.Value, SeqShape.sortedSet.Holds t a → SeqShape.sortedSet.Holds t b → (∀ x, x ∈ a ↔ x ∈ b) →
      ∀ sink : Sink, (Codec.seq .sortedSet codec).write a sink = (Codec.seq .sortedSet codec).write b sink := by
  refine ⟨fun shape ordered source => ?_, fun layout shape source => comesTo_seq layout shape codec source,
    fun shape elements sink => rfl, fun a b first second same sink => ?_⟩
  · rw [read, read, decode_seq shape, Decoder.read_bind]
    rcases (Codec.seq .vector codec).decode.read source with ⟨error | elements, after⟩
    · rfl
    · exact ⟨Decoder.snd_read_gathered shape elements after, SeqShape.collects_gathered ordered elements after⟩
  · rw [Sorted.eq_of_increasing first second same]

/-- The decimals 1.0, 2 and 1 as digits and scales, of which the first and the last are equal, read as a list, as sets
and as an array of two; and a set that took in 2 and 1.0 beside one that took in 1.0, 2 and 1. -/
theorem shapes_refine_lists_decimals :
    let codec : Codec .decimal := .derived "ScaledCodec" (.pair (.int .unsigned .one) (.int .unsigned .one))
      (fun d => .ok (.ofInt 8 d.digits, d.scale.setWidth 8)) fun parts => .ok ⟨parts.1.toNat, parts.2.setWidth 64⟩
    let source : Source := .ofBytes [3, 10, 1, 2, 0, 1, 0] .standard
    let set := fun elements : List Decimal => elements.foldl (fun set x => Sorted.insert Decimal.order x set) []
    (Codec.seq .vector codec).read source = (.ok [⟨10, 1⟩, ⟨2, 0⟩, ⟨1, 0⟩], ⟨⟨[], .endOfInput, []⟩, 7, .standard⟩) ∧
      SeqShape.sortedSet.Collects .decimal [⟨10, 1⟩, ⟨2, 0⟩, ⟨1, 0⟩] ((Codec.seq .sortedSet codec).read source).1 ∧
      SeqShape.hashSet.Collects .decimal [⟨10, 1⟩, ⟨2, 0⟩, ⟨1, 0⟩] ((Codec.seq .hashSet codec).read source).1 ∧
      ((Codec.seq (.array 2) codec).read source).1 = .error (.elementCount 2 3) ∧
      ∀ sink : Sink, (Codec.seq .sortedSet codec).write (set [⟨2, 0⟩, ⟨10, 1⟩]) sink =
        (Codec.seq .sortedSet codec).write (set [⟨10, 1⟩, ⟨2, 0⟩, ⟨1, 0⟩]) sink := by
  intro codec source set
  obtain ⟨reads, -, -, alike⟩ := shapes_refine_lists codec
  have read : (Codec.seq .vector codec).read source =
      (.ok [⟨10, 1⟩, ⟨2, 0⟩, ⟨1, 0⟩], ⟨⟨[], .endOfInput, []⟩, 7, .standard⟩) := by decide +kernel
  have sorted := reads .sortedSet nofun source
  have hashed := reads .hashSet (fun _ => trivial) source
  have array := reads (.array 2) nofun source
  rw [read] at sorted hashed array
  refine ⟨read, sorted.2, hashed.2, array.2, ?_⟩
  have same : set [⟨2, 0⟩, ⟨10, 1⟩] = set [⟨10, 1⟩, ⟨2, 0⟩, ⟨1, 0⟩] := by decide +kernel
  have increasing (elements : List Decimal) : SeqShape.sortedSet.Holds .decimal (set elements) :=
    @SeqShape.holds_of_gather .sortedSet .decimal elements _ (fun _ => trivial) rfl
  exact alike _ _ (increasing _) (increasing _) fun x => by rw [same]

private theorem read_replicate_unit (count : Nat) (source : Source) :
    (Decoder.replicate count Codec.unit.decode).read source = (.ok (List.replicate count ()), source) := by
  induction count with
  | zero => rfl
  | succ count ih =>
    rw [Decoder.replicate_succ, Decoder.read_bind]
    change (Decoder.replicate count Codec.unit.decode >>= _).read source = _
    rw [Decoder.read_bind, ih]
    rfl

private theorem read_units {count : Nat} {source after : Source}
    (counted : Decoder.length.read source = (.ok count, after)) :
    (Codec.seq .vector .unit).read source = (.ok (List.replicate count ()), after) := by
  rw [read, decode, Decoder.read_bind, counted]
  dsimp only
  rw [Decoder.read_bind, read_replicate_unit]
  rfl

/-- A list of 2 ^ 63 units asks for nothing in advance and is read. A hashed set may ask for so many buckets, and does
not return. -/
theorem reserved_units_end_run :
    let source : Source := .ofBytes (List.replicate 9 0x80 ++ [1]) ⟨18446744073709551615, 18446744073709551615⟩
    let layout : Layout := ⟨fun _ => 0, fun _ capacity => 2 * capacity⟩
    ((Codec.seq .vector .unit).run layout).outcome source =
        some (.ok (List.replicate 9223372036854775808 ()), ⟨⟨[], .endOfInput, []⟩, 10, source.limits⟩) ∧
      ((Codec.seq .hashSet .unit).run layout).outcome source = none := by
  intro source layout
  have counted : Decoder.length.read source =
      (.ok 9223372036854775808, ⟨⟨[], .endOfInput, []⟩, 10, source.limits⟩) := by decide +kernel
  have room : (Codec.seq .vector .unit).Roomy layout source.limits :=
    ⟨fun count _ => Nat.zero_le Layout.limit, trivial⟩
  have ran := (run_cases layout (Codec.seq .vector .unit) source).resolve_right fun ended => ended.2 room
  exact ⟨ran.trans (congrArg some (read_units counted)), by decide +kernel⟩

end Codec
end TypedWire
