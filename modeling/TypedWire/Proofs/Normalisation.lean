import TypedWire.Proofs.Acceptance
import TypedWire.Proofs.RoundTrip

namespace TypedWire.Codec

variable {t : Ty}

/-- A value is written as what becomes of it. -/
theorem Standard.encode_settle {codec : Codec t} (standard : codec.Standard) (v : t.Value) :
    codec.encode (t.settle v) = codec.encode v := by
  induction standard with
  | never => exact v.elim
  | bytes => exact congrArg Emission.payload (List.map_id' v)
  | decimal =>
    have parts : decimalParts (v.normal.getD v) = decimalParts v := by
      cases normal : v.normal with
      | none => rfl
      | some n =>
        have again := Decimal.normal_of_isNormal (Decimal.isNormal_of_normal normal)
        rw [decimalParts, decimalParts, Option.getD_some, again, normal]
    rw [Ty.settle, Codec.decimal, encode_derived, encode_derived, parts]
  | seq shape _ _ ih =>
    simp only [Ty.settle, encode, List.length_map, Output.concat_map, ih]
  | map shape _ _ _ ihk ihv =>
    simp only [Ty.settle, encode, List.length_map, Output.concat_map, ihk, ihv]
  | option _ ih =>
    cases v with
    | none => rfl
    | some x => simp only [Ty.settle, Option.map_some, encode, ih]
  | pair _ _ iha ihb => simp only [Ty.settle, encode, iha, ihb]
  | triple _ _ _ iha ihb ihc => simp only [Ty.settle, encode, iha, ihb, ihc]
  | _ => rfl

/-- A container whose parts announce no other lengths announces no other lengths itself. -/
private theorem counted_of_arranged {α : Type} {R : α → α → Prop} {F : α → List Nat} {a arranged b : List α}
    {n : Nat} (perm : a.Perm arranged) (placed : List.Forall₂ R arranged b) (step : ∀ x y, R x y → n ∈ F y → n ∈ F x)
    (member : n ∈ b.length :: b.flatMap F) : n ∈ a.length :: a.flatMap F := by
  rcases List.mem_cons.mp member with rfl | inside
  · rw [← placed.length_eq, ← perm.length_eq]
    exact List.mem_cons_self ..
  · obtain ⟨y, there, announced⟩ := List.mem_flatMap.mp inside
    obtain ⟨x, there', same⟩ := exists_of_mem_images placed there
    refine List.mem_cons_of_mem _ (List.mem_flatMap.mpr ⟨x, perm.mem_iff.mpr there', ?_⟩)
    exact step x y same announced

/-- In whatever order hashed containers yield what they hold, the same lengths are announced. -/
theorem Standard.lengths_of_reorders {codec : Codec t} (standard : codec.Standard) {v seen : t.Value}
    (reorders : t.Reorders v seen) {n : Nat} (member : n ∈ codec.lengths seen) : n ∈ codec.lengths v := by
  induction standard with
  | bytes =>
    have same : v = seen := Ty.eq_of_reorders (.seq .vector .byte) ⟨by decide, trivial⟩ reorders
    rwa [same]
  | seq shape _ _ ih =>
    obtain ⟨arranged, perm, placed⟩ := Ty.arranged_of_reorders_seq reorders
    exact counted_of_arranged perm placed (fun x y => ih) member
  | map shape _ _ _ ihk ihv =>
    obtain ⟨arranged, perm, placed⟩ := Ty.arranged_of_reorders_map reorders
    refine counted_of_arranged perm placed (fun p q same inside => ?_) member
    exact List.mem_append.mpr ((List.mem_append.mp inside).imp (ihk same.1) (ihv same.2))
  | option _ ih =>
    cases reorders with
    | none => exact member
    | some same => exact ih same member
  | pair _ _ iha ihb =>
    exact List.mem_append.mpr ((List.mem_append.mp member).imp (iha reorders.1) (ihb reorders.2))
  | triple _ _ _ iha ihb ihc =>
    obtain ⟨first, second, third⟩ := reorders
    simp only [lengths, List.mem_append] at member ⊢
    exact member.imp (iha first) (Or.imp (ihb second) (ihc third))
  | _ =>
    cases reorders
    exact member

/-- Whatever bytes are accepted, the value that they stand for can be written again, in whatever order its hashed
containers yield what they hold, and what is written is accepted for a value with the same stand-in. If there
are no hashed containers, that value is written as the same bytes. -/
theorem decode_encode_normalises {codec : Codec t} (standard : codec.Standard) {bytes : List Byte} {v : t.Value}
    (accepts : codec.ofBytes bytes = .ok v) (fit : t.ScalesFit v) :
    ∃ stand, ∀ seen, t.Reorders v seen → ∃ normal again, codec.structural seen = .ok stand ∧
      codec.toBytes seen = .ok normal ∧ codec.ofBytes normal = .ok again ∧
        ∀ seenAgain, t.Reorders again seenAgain →
          codec.structural seenAgain = .ok stand ∧ (t.Unhashed → codec.toBytes seenAgain = .ok normal) := by
  have accepted := (standard.takes_accepted .standard).accepts accepts
  obtain ⟨stand, stands⟩ := (toBytes_ok_iff codec v).mp (accepted.encodes fit)
  refine ⟨stand, fun seen reorders => ?_⟩
  have validSeen := t.valid_of_reorders standard.formed reorders accepted.valid
  have fitSeen := t.scalesFit_of_reorders reorders fit
  have standsSeen := structural_of_reorders standard reorders accepted.valid fit stands
  obtain ⟨normal, encodes⟩ := (toBytes_ok_iff codec seen).mpr ⟨stand, standsSeen⟩
  have within : codec.Within .standard seen := fun n member =>
    accepted.announced n (standard.lengths_of_reorders reorders member)
  have again := (standard.returns .standard validSeen fitSeen encodes within).accepts
  refine ⟨normal, t.settle seen, standsSeen, encodes, again, fun seenAgain reorders' => ⟨?_, fun unhashed => ?_⟩⟩
  · exact structural_of_reorders standard reorders' (t.valid_settle standard.formed validSeen)
      (t.scalesFit_settle fitSeen) (structural_settle standard validSeen fitSeen standsSeen)
  · -- There is one order only, and what settling changed is not seen by encoding.
    rw [← t.eq_of_unhashed unhashed reorders', toBytes, standard.encode_settle]
    exact encodes

/-- A set of integers behind an overlong count, out of order, with padded numerals and one number twice. -/
theorem decode_encode_normalises_set :
    (Codec.seq .sortedSet Codec.integer).ofBytes [0x83, 0, 2, 0, 5, 1, 3, 1, 5] = .ok [3, 5] ∧
      ∃ stand, ∀ seen, Ty.Reorders (.seq .sortedSet .integer) [3, 5] seen → ∃ normal again,
        (Codec.seq .sortedSet Codec.integer).structural seen = .ok stand ∧
        (Codec.seq .sortedSet Codec.integer).toBytes seen = .ok normal ∧
        (Codec.seq .sortedSet Codec.integer).ofBytes normal = .ok again ∧
          ∀ seenAgain, Ty.Reorders (.seq .sortedSet .integer) again seenAgain →
            (Codec.seq .sortedSet Codec.integer).structural seenAgain = .ok stand ∧
              (Ty.Unhashed (.seq .sortedSet .integer) →
                (Codec.seq .sortedSet Codec.integer).toBytes seenAgain = .ok normal) := by
  have accepts : (Codec.seq .sortedSet Codec.integer).ofBytes [0x83, 0, 2, 0, 5, 1, 3, 1, 5] = .ok [3, 5] := by
    decide +kernel
  have standard : (Codec.seq .sortedSet Codec.integer).Standard :=
    .seq .sortedSet (fun _ => trivial) .integer
  exact ⟨accepts, decode_encode_normalises standard accepts fun _ _ => trivial⟩

end TypedWire.Codec
