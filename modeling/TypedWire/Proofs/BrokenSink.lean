import TypedWire.Proofs.FirstRefusal
import TypedWire.Proofs.WillingSink
import TypedWire.Proofs.Writing

namespace TypedWire

namespace Sink

theorem root_wrap (path : List String) (error : EncodeError) : (wrap path error).root = error.root := by
  induction path with
  | nil => rfl
  | cons label path ih => exact ih

variable {sink : Sink} {count : Nat} {refusal : WriteRefusal}

/-- Writes for which there is too little room are performed up to the one into which the refusal falls. -/
theorem playAll_short (writes : List Write) (breaks : sink.writer.Breaks count refusal)
    (short : count < (writes.flatMap (·.data)).length) :
    ∃ front cut back after, writes = front ++ cut :: back ∧
      playAll writes sink = (.error (wrap cut.path (.io after.offset refusal.failure)), after) ∧
      after.offset = sink.offset + (front.flatMap (·.data)).length ∧ (front.flatMap (·.data)).length ≤ count ∧
      count < (front.flatMap (·.data)).length + cut.data.length ∧
      after.writer.accepted.toList = sink.writer.accepted.toList ++ (writes.flatMap (·.data)).take count := by
  induction writes generalizing sink count with
  | nil => exact absurd short (Nat.not_lt_zero count)
  | cons w rest ih =>
    rw [List.flatMap_cons, List.length_append] at short
    rw [List.flatMap_cons]
    by_cases enough : w.data.length ≤ count
    · obtain ⟨writer, pushed, breaks', accepted⟩ := breaks.push_enough enough
      obtain ⟨front, cut, back, after, rfl, played, moved, before, behind, taken⟩ :=
        @ih ⟨writer, sink.offset + w.data.length⟩ _ breaks' (by omega)
      refine ⟨w :: front, cut, back, after, rfl, ?_, ?_, ?_, ?_, ?_⟩
      · rw [playAll, write, pushed]
        exact played
      · rw [moved, List.flatMap_cons, List.length_append, Nat.add_assoc]
      · rw [List.flatMap_cons, List.length_append]
        omega
      · rw [List.flatMap_cons, List.length_append]
        omega
      · rw [taken, accepted, List.append_assoc, List.take_append, List.take_of_length_le enough]
    · have less : count < w.data.length := Nat.lt_of_not_le enough
      obtain ⟨writer, pushed, taken⟩ := breaks.push_short less
      refine ⟨[], w, rest, ⟨writer, sink.offset⟩, rfl, ?_, rfl, Nat.zero_le count, ?_, ?_⟩
      · rw [playAll, write, pushed]
      · rwa [List.flatMap_nil, List.length_nil, Nat.zero_add]
      · rw [taken, List.take_append_of_le_length (Nat.le_of_lt less)]

end Sink

namespace Codec

variable {t : Ty}

theorem play_ok {emission : Emission} {sink after : Sink}
    (played : Sink.playAll emission.items sink = (.ok (), after)) :
    sink.play emission = (emission.toBytes.map fun _ => (), after) := by
  cases ends : emission.failure with
  | none => simp only [Sink.play, played, Emission.toBytes, ends, Except.map]
  | some error => simp only [Sink.play, played, Emission.toBytes, ends, Except.map]

/-- What is written to a stream that takes everything is the bytes of the encoding, with what ended it. -/
theorem write_unlimited (codec : Codec t) (v : t.Value) :
    ∃ after, codec.write v (.ofWriter .unlimited) = ((codec.toBytes v).map fun _ => (), after) ∧
      after.writer.accepted.toList = (codec.encode v).bytes := by
  have willing : (Sink.ofWriter .unlimited).writer.Willing := Writer.willing_unlimited
  obtain ⟨after, played, -, taken, -⟩ := Sink.playAll_willing (codec.encode v).items willing
  exact ⟨after, play_ok played, taken⟩

/-- A stream that takes `count` bytes before it refuses receives the first `count` bytes of what a stream that takes
everything receives. If that is all, encoding ends as it does there. Otherwise it fails, with the failure of the
stream at the root; the error and the sink tell where the write began into which the refusal fell. -/
theorem write_until_refusal (codec : Codec t) (v : t.Value) {writer : Writer} {count : Nat} {refusal : WriteRefusal}
    (breaks : writer.Breaks count refusal) {result : Except EncodeError Unit} {full : Sink}
    (whole : codec.write v (.ofWriter .unlimited) = (result, full)) :
    (full.writer.accepted.size ≤ count → ∃ after, codec.write v (.ofWriter writer) = (result, after) ∧
      after.writer.accepted.toList = writer.accepted.toList ++ full.writer.accepted.toList ∧
      after.offset = full.writer.accepted.size) ∧
    (count < full.writer.accepted.size → ∃ front cut back error after,
      (codec.encode v).items = front ++ cut :: back ∧ codec.write v (.ofWriter writer) = (.error error, after) ∧
      error.root = .io after.offset refusal.failure ∧ after.offset = (front.flatMap (·.data)).length ∧
      after.offset ≤ count ∧ count < after.offset + cut.data.length ∧
      after.writer.accepted.toList = writer.accepted.toList ++ full.writer.accepted.toList.take count) := by
  obtain ⟨full', written, bytes⟩ := codec.write_unlimited v
  obtain ⟨rfl, rfl⟩ := Prod.mk.inj (whole.symm.trans written)
  rw [← Array.length_toList, bytes]
  have breaks' : (Sink.ofWriter writer).writer.Breaks count refusal := breaks
  constructor
  · intro enough
    obtain ⟨after, played, -, taken, moved⟩ :=
      Sink.playAll_ready Writer.Breaks.push_enough (codec.encode v).items breaks' enough
    exact ⟨after, play_ok played, taken, moved.trans (Nat.zero_add _)⟩
  · intro short
    obtain ⟨front, cut, back, after, split, played, moved, before, behind, taken⟩ :=
      Sink.playAll_short (codec.encode v).items breaks' short
    have place : after.offset = (front.flatMap (·.data)).length := moved.trans (Nat.zero_add _)
    refine ⟨front, cut, back, Sink.wrap cut.path (.io after.offset refusal.failure), after, split, ?_,
      Sink.root_wrap _ _, place, ?_, ?_, taken⟩
    · rw [write, Sink.play, played]
    · rwa [place]
    · rwa [place]

/-- A flag and a text, to a stream that is full before the last byte of the text. -/
theorem write_until_refusal_pair :
    (⟨#[], [.room 2, .interrupted, .room 1], some .full⟩ : Writer).Breaks 3 .full ∧
      ∃ front cut back error after, ((Codec.pair .bool .text).encode (true, "ab")).items = front ++ cut :: back ∧
        (Codec.pair .bool .text).write (true, "ab")
          (.ofWriter ⟨#[], [.room 2, .interrupted, .room 1], some .full⟩) = (.error error, after) ∧
        error.root = .io after.offset .nothingWritten ∧ after.offset = (front.flatMap (·.data)).length ∧
        after.offset ≤ 3 ∧ 3 < after.offset + cut.data.length ∧ after.writer.accepted.toList = [1, 2, 0x61] := by
  have breaks : (⟨#[], [.room 2, .interrupted, .room 1], some .full⟩ : Writer).Breaks 3 .full := ⟨rfl, rfl⟩
  have whole : (Codec.pair .bool .text).write (true, "ab") (.ofWriter .unlimited) =
      (.ok (), ⟨⟨#[1, 2, 0x61, 0x62], [], none⟩, 4⟩) := by decide +kernel
  exact ⟨breaks, (write_until_refusal (.pair .bool .text) (true, "ab") breaks whole).2 (by decide)⟩

end Codec
end TypedWire
