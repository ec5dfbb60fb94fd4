import TypedWire.Proofs.Acceptance
import TypedWire.Proofs.Reservations
import TypedWire.Proofs.Scanning
import TypedWire.Proofs.Tightening

namespace TypedWire

namespace Codec

variable {t : Ty}

/-- An encoding that announces a length above the limit is refused at the first such length. -/
theorem Standard.refuses {codec : Codec t} (standard : codec.Standard) {limits : DecodeLimits} {v : t.Value}
    (valid : t.Valid v) (fit : t.ScalesFit v) {bytes : List Byte} (encodes : codec.toBytes v = .ok bytes)
    (bounded : codec.Within .unbounded v) {front back : Frame} {n : Nat}
    (split : codec.frame v = front ++ .length n :: back) (allowed : front.Allowed limits)
    (above : limits.maxLength.toNat < n) {source : Source} {place : Nat} {rest : List Byte}
    (serves : source.Serves limits place (bytes ++ rest)) :
    ∃ error after, codec.read source = (.error error, after) ∧
      error.root = .lengthLimit (place + front.bytes.length) n limits.maxLength.toNat := by
  have small : ∀ m, .length m ∈ codec.frame v → m < 2 ^ 64 := fun m member =>
    Nat.lt_of_le_of_lt (bounded m ((mem_lengths_iff codec v m).mpr member)) (by decide)
  have spells := Frame.spells_bytes fun m member => small m (split ▸ List.mem_append_left _ member)
  have denotes := Varint.denotes_encode (small n (split ▸ List.mem_append_right _ (List.mem_cons_self ..)))
  have scans := standard.scansFrames limits valid fit ⟨bytes, encodes⟩
  have refused := scans.refuses split allowed above spells denotes
  refine refused source place (back.bytes ++ rest) ?_
  rw [← bytes_frame encodes, split, Frame.bytes_append, Frame.bytes_cons] at serves
  simpa only [List.append_assoc, Part.bytes] using serves

/-- Of two limits on lengths the tighter one does the same as the looser one, up to the limit that an error reports, or
it refuses a length above it; how much may be asked for in advance makes no difference, as long as the runs return,
which they do if there is room for that. What a standard codec has read under a limit holds no more than that; and it
refuses an encoding that announces more, lengths being numbers of 64 bits, at the first length above the limit, and
tells this length and its place. -/
theorem limits_only_refuse (layout : Layout) (codec : Codec t) :
    (∀ (source : Source) (strict loose : DecodeLimits), strict.maxLength ≤ loose.maxLength →
      ∀ tight wide, (codec.run layout).outcome (source.under strict) = some tight →
        (codec.run layout).outcome (source.under loose) = some wide → Tightens strict loose tight wide) ∧
    (∀ source : Source, codec.Roomy layout source.limits →
      ∃ outcome, (codec.run layout).outcome source = some outcome) ∧
    (codec.Standard → ∀ (limits : DecodeLimits) (source : Source) (place : Nat),
      (∀ (bytes : List Byte) (v : t.Value) (after : Source), source.Serves limits place bytes →
        (codec.run layout).outcome source = some (.ok v, after) → ∀ n ∈ t.counts v, n ≤ limits.maxLength.toNat) ∧
      ∀ (v : t.Value) (bytes rest : List Byte), t.Valid v → t.ScalesFit v → codec.toBytes v = .ok bytes →
        codec.Within .unbounded v → (∃ n ∈ codec.lengths v, limits.maxLength.toNat < n) →
          source.Serves limits place (bytes ++ rest) →
            ∃ (front back : Frame) (n : Nat) (error : DecodeError) (after : Source),
              codec.frame v = front ++ .length n :: back ∧ front.Allowed limits ∧ limits.maxLength.toNat < n ∧
                error.root = .lengthLimit (place + front.bytes.length) n limits.maxLength.toNat ∧
                  ((codec.run layout).outcome source = some (.error error, after) ∨
                    (codec.run layout).outcome source = none ∧ ¬codec.Roomy layout limits)) := by
  refine ⟨fun source strict loose tighter tight wide one other => ?_, fun source room => ?_, ?_⟩
  · rw [← read_of_run one, ← read_of_run other]
    exact codec.built_decode.tightens tighter source
  · exact ⟨_, (run_cases layout codec source).resolve_right fun ended => ended.2 room⟩
  intro standard limits source place
  constructor
  · intro bytes v after serves ran
    obtain ⟨taken, rest, -, -, accepted⟩ := standard.takes_accepted limits _ _ _ _ _ serves (read_of_run ran)
    exact accepted.counted
  · rintro v bytes rest valid fit encodes bounded ⟨m, member, above⟩ serves
    obtain ⟨front, n, back, split, allowed, beyond⟩ :=
      Frame.first_above ⟨m, (mem_lengths_iff codec v m).mp member, above⟩
    obtain ⟨error, after, read, root⟩ :=
      standard.refuses valid fit encodes bounded split allowed beyond serves
    have ran := run_cases layout codec source
    rw [read, serves.bounds] at ran
    exact ⟨front, back, n, error, after, split, allowed, beyond, root, ran⟩

private theorem roomy_lists {limits : DecodeLimits} (few : limits.maxPrealloc.toNat ≤ 65536) :
    (Codec.seq .vector .bytes).Roomy ⟨fun _ => 24, fun _ _ => 0⟩ limits := by
  have most : Layout.limit = 9223372036854775807 := rfl
  constructor
  · refine (DecodeLimits.grants_iff fun less => Nat.mul_le_mul_right 24 less).mpr ?_
    omega
  · refine (DecodeLimits.grants_iff id).mpr ?_
    omega

/-- Two strings of bytes, of which the second has three under a limit of two. -/
theorem limits_only_refuse_lists :
    (∃ tight wide, ((Codec.seq .vector .bytes).run ⟨fun _ => 24, fun _ _ => 0⟩).outcome
          (Source.under (.ofBytes [2, 1, 7, 3, 4, 5, 6] .standard) ⟨2, 0⟩) = some tight ∧
        ((Codec.seq .vector .bytes).run ⟨fun _ => 24, fun _ _ => 0⟩).outcome
          (Source.under (.ofBytes [2, 1, 7, 3, 4, 5, 6] .standard) .standard) = some wide ∧
        Tightens ⟨2, 0⟩ .standard tight wide) ∧
    (∀ n ∈ Ty.counts (.seq .vector (.seq .vector .byte)) [[7], [4, 5]], n ≤ 2) ∧
    ∃ (front back : Frame) (n : Nat) (error : DecodeError) (after : Source),
      (Codec.seq .vector .bytes).frame [[7], [4, 5, 6]] = front ++ .length n :: back ∧
        front.Allowed ⟨2, 0⟩ ∧ 2 < n ∧ error.root = .lengthLimit (0 + front.bytes.length) n 2 ∧
          ((Codec.seq .vector .bytes).run ⟨fun _ => 24, fun _ _ => 0⟩).outcome
            (.ofBytes [2, 1, 7, 3, 4, 5, 6] ⟨2, 0⟩) = some (.error error, after) := by
  have tightRoom : (Codec.seq .vector .bytes).Roomy ⟨fun _ => 24, fun _ _ => 0⟩ ⟨2, 0⟩ := roomy_lists (by decide)
  have wideRoom : (Codec.seq .vector .bytes).Roomy ⟨fun _ => 24, fun _ _ => 0⟩ .standard := roomy_lists (by decide)
  obtain ⟨tightens, returns, standard⟩ :=
    limits_only_refuse ⟨fun _ => 24, fun _ _ => 0⟩ (Codec.seq .vector .bytes)
  have reads := standard (.seq .vector (fun sorted => absurd rfl sorted) .bytes) ⟨2, 0⟩
  refine ⟨?_, ?_, ?_⟩
  · obtain ⟨tight, one⟩ := returns (Source.under (.ofBytes [2, 1, 7, 3, 4, 5, 6] .standard) ⟨2, 0⟩) tightRoom
    obtain ⟨wide, other⟩ := returns (Source.under (.ofBytes [2, 1, 7, 3, 4, 5, 6] .standard) .standard) wideRoom
    exact ⟨tight, wide, one, other, tightens _ _ _ (by decide) tight wide one other⟩
  · exact (reads (.ofBytes [2, 1, 7, 2, 4, 5] ⟨2, 0⟩) 0).1 _ _ _ (Source.serves_ofBytes _ _) rfl
  · have refused := (reads (.ofBytes [2, 1, 7, 3, 4, 5, 6] ⟨2, 0⟩) 0).2 [[7], [4, 5, 6]] [2, 1, 7, 3, 4, 5, 6] []
      ⟨trivial, fun _ _ => ⟨trivial, fun _ _ => trivial⟩⟩ (fun _ _ _ _ => trivial) ?_ ?_ ⟨3, by decide, by decide⟩
      (Source.serves_ofBytes _ _)
    · obtain ⟨front, back, n, error, after, split, allowed, above, root, ran⟩ := refused
      exact ⟨front, back, n, error, after, split, allowed, above, root,
        ran.resolve_right fun ended => ended.2 tightRoom⟩
    · refine toBytes_seq_iff.mpr ⟨[[1, 7], [3, 4, 5, 6]], .cons ?_ (.cons ?_ .nil), ?_⟩
      · exact (toBytes_payload [7]).trans (by simp [Varint.encode_of_lt])
      · exact (toBytes_payload [4, 5, 6]).trans (by simp [Varint.encode_of_lt])
      · simp [Varint.encode_of_lt]
    · change ∀ n ∈ [2, 1, 3], n ≤ DecodeLimits.unbounded.maxLength.toNat
      decide

/-- A text that announces 2 ^ 63 bytes and ends there is found to end early, unless so many may be asked for in
advance: then the run does not return. -/
theorem prealloc_ends_run :
    ((Codec.text.run ⟨fun _ => 24, fun _ _ => 0⟩).outcome
        (.ofBytes (List.replicate 9 0x80 ++ [1]) .unbounded)).map Prod.fst = some (.error (.unexpectedEof 10)) ∧
      (Codec.text.run ⟨fun _ => 24, fun _ _ => 0⟩).outcome
        (.ofBytes (List.replicate 9 0x80 ++ [1]) ⟨18446744073709551615, 18446744073709551615⟩) = none := by
  decide +kernel

end Codec
end TypedWire
