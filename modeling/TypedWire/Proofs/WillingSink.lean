import TypedWire.Proofs.Encoding

namespace TypedWire

namespace Writer

/-- The stream takes everything in the end. -/
structure Willing (writer : Writer) : Prop where
  unrefused : ∀ refusal, Acceptance.refusal refusal ∉ writer.script
  endless : writer.ending = none

theorem willing_unlimited : unlimited.Willing := ⟨by simp [unlimited], rfl⟩

theorem offer_unrefused {script : List Acceptance} (data : List Byte) (accepted : Array Byte)
    (unrefused : ∀ refusal, Acceptance.refusal refusal ∉ script) :
    (offer none script data accepted).1 = none ∧
      ∀ refusal, Acceptance.refusal refusal ∉ (offer none script data accepted).2.1 := by
  fun_induction offer none script data accepted with
  | case1 script accepted => exact ⟨rfl, unrefused⟩
  | case2 byte data accepted => exact ⟨rfl, by simp⟩
  | case3 byte data accepted refusal ends => cases ends
  | case4 script byte data accepted ih =>
    exact ih fun refusal member => unrefused refusal (List.mem_cons_of_mem _ member)
  | case5 refusal => exact absurd (by simp) (unrefused refusal)
  | case6 bytes script byte data accepted short =>
    refine ⟨rfl, ?_⟩
    rintro refusal (_ | ⟨_, member⟩)
    exact unrefused refusal (List.mem_cons_of_mem _ member)
  | case7 bytes script byte data accepted long ih =>
    exact ih fun refusal member => unrefused refusal (List.mem_cons_of_mem _ member)

/-- A willing stream takes what is pushed, and stays willing. -/
theorem push_willing {writer : Writer} (willing : writer.Willing) (data : List Byte) :
    ∃ after, writer.push data = (none, after) ∧ after.Willing ∧
      after.accepted.toList = writer.accepted.toList ++ data := by
  obtain ⟨unrefused, endless⟩ := willing
  obtain ⟨success, left⟩ := offer_unrefused data writer.accepted unrefused
  have taken := offer_accepted_of_none none writer.script data writer.accepted success
  refine ⟨_, Prod.ext ?_ rfl, ⟨?_, endless⟩, ?_⟩
  · simp only [push, endless]
    exact success
  · simp only [push, endless]
    exact left
  · simp only [push, endless]
    exact taken

end Writer

namespace Sink

/-- Where each write is taken for which a stream is ready, and leaves it ready for that much less, all writes of an
emission are performed for which it is ready in the beginning. -/
theorem playAll_ready {Ready : Nat → Writer → Prop}
    (step : ∀ {count : Nat} {writer : Writer} {data : List Byte}, Ready count writer → data.length ≤ count →
      ∃ after, writer.push data = (none, after) ∧ Ready (count - data.length) after ∧
        after.accepted.toList = writer.accepted.toList ++ data)
    (writes : List Write) {sink : Sink} {count : Nat} (ready : Ready count sink.writer)
    (enough : (writes.flatMap (·.data)).length ≤ count) :
    ∃ after, playAll writes sink = (.ok (), after) ∧
      Ready (count - (writes.flatMap (·.data)).length) after.writer ∧
      after.writer.accepted.toList = sink.writer.accepted.toList ++ writes.flatMap (·.data) ∧
      after.offset = sink.offset + (writes.flatMap (·.data)).length := by
  induction writes generalizing sink count with
  | nil => exact ⟨sink, rfl, ready, by simp, rfl⟩
  | cons w rest ih =>
    rw [List.flatMap_cons, List.length_append] at enough ⊢
    have first : w.data.length ≤ count := Nat.le_trans (Nat.le_add_right _ _) enough
    obtain ⟨writer, pushed, ready', accepted⟩ := step ready first
    obtain ⟨after, played, left, taken, moved⟩ :=
      @ih ⟨writer, sink.offset + w.data.length⟩ _ ready' (Nat.le_sub_of_add_le' enough)
    refine ⟨after, ?_, ?_, ?_, ?_⟩
    · rw [playAll, write, pushed]
      exact played
    · rwa [Nat.sub_sub] at left
    · rw [taken, accepted, List.append_assoc]
    · rw [moved, Nat.add_assoc]

theorem playAll_willing (writes : List Write) {sink : Sink} (willing : sink.writer.Willing) :
    ∃ after, playAll writes sink = (.ok (), after) ∧ after.writer.Willing ∧
      after.writer.accepted.toList = sink.writer.accepted.toList ++ writes.flatMap (·.data) ∧
      after.offset = sink.offset + (writes.flatMap (·.data)).length :=
  @playAll_ready (fun _ writer => writer.Willing) (fun willing _ => Writer.push_willing willing _) writes _ _ willing
    (Nat.le_refl _)

end Sink

/-- A value with an encoding is written to a willing sink as its encoding. -/
theorem Codec.write_willing {t : Ty} {codec : Codec t} {v : t.Value} {bytes : List Byte}
    (encodes : codec.toBytes v = .ok bytes) {sink : Sink} (willing : sink.writer.Willing) :
    ∃ after, codec.write v sink = (.ok (), after) ∧ after.writer.Willing ∧
      after.writer.accepted.toList = sink.writer.accepted.toList ++ bytes ∧
      after.offset = sink.offset + bytes.length := by
  obtain ⟨complete, rfl⟩ := Emission.toBytes_eq_ok_iff.mp encodes
  obtain ⟨after, played, done, taken, moved⟩ := Sink.playAll_willing (codec.encode v).items willing
  refine ⟨after, ?_, done, taken, moved⟩
  rw [write, Sink.play, played, complete]

end TypedWire
