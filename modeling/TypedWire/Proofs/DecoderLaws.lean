import TypedWire.Codec.Decode

namespace TypedWire.Decoder

variable {α β : Type}

theorem ext_read {first second : Decoder α} (same : ∀ source, first.read source = second.read source) :
    first = second := funext same

/-- Both of two decoders succeed if their sequence does. -/
theorem exists_of_read_bind {first : Decoder α} {second : α → Decoder β} {source after : Source} {b : β}
    (read : (first >>= second).read source = (.ok b, after)) :
    ∃ a between, first.read source = (.ok a, between) ∧ (second a).read between = (.ok b, after) := by
  rw [read_bind] at read
  generalize first.read source = outcome at read
  obtain ⟨result, between⟩ := outcome
  cases result with
  | ok a => exact ⟨a, between, rfl, read⟩
  | error error => cases read

/-- If a sequence of two decoders fails, the first one does, or the second one where the first one stopped. -/
theorem error_of_read_bind {first : Decoder α} {second : α → Decoder β} {source after : Source} {error : DecodeError}
    (read : (first >>= second).read source = (.error error, after)) :
    first.read source = (.error error, after) ∨
      ∃ a between, first.read source = (.ok a, between) ∧ (second a).read between = (.error error, after) := by
  rw [read_bind] at read
  rcases outcome : first.read source with ⟨error' | a, between⟩
  · rw [outcome] at read
    cases read
    exact .inl rfl
  · rw [outcome] at read
    exact .inr ⟨a, between, rfl, read⟩

theorem read_labeled_eq_ok_iff {label : String} {decoder : Decoder α} {source after : Source} {value : α} :
    (decoder.labeled label).read source = (.ok value, after) ↔ decoder.read source = (.ok value, after) := by
  rw [read_labeled]
  obtain ⟨result, between⟩ := decoder.read source
  cases result with
  | ok a => simp
  | error error => simp

theorem error_of_read_labeled {label : String} {decoder : Decoder α} {source after : Source} {error : DecodeError}
    (read : (decoder.labeled label).read source = (.error error, after)) :
    ∃ cause, decoder.read source = (.error cause, after) ∧ error = cause.labeled label := by
  rw [read_labeled] at read
  rcases outcome : decoder.read source with ⟨cause | a, between⟩
  · rw [outcome] at read
    cases read
    exact ⟨cause, rfl, rfl⟩
  · rw [outcome] at read
    cases read

@[simp] theorem labeled_offset (label : String) : labeled label offset = offset := rfl

@[simp] theorem labeled_limits (label : String) : labeled label limits = limits := rfl

theorem labeled_bind (label : String) (first : Decoder α) (second : α → Decoder β) :
    labeled label (first >>= second) = labeled label first >>= fun value => labeled label (second value) := by
  refine ext_read fun source => ?_
  simp only [read_labeled, read_bind]
  cases first.read source with
  | mk result after => cases result <;> rfl

private theorem repeatFrom_done (decoder : Decoder α) (count : Nat) (done : List α) (source : Source) :
    repeatFrom decoder count done source =
      let (outcome, after) := repeatFrom decoder count [] source
      ((done.reverse ++ outcome.1, outcome.2), after) := by
  induction count generalizing done source with
  | zero => simp [repeatFrom]
  | succ count ih =>
    simp only [repeatFrom]
    cases decoder.read source with
    | mk result after =>
      cases result with
      | ok value =>
        simp only
        rw [ih (value :: done), ih [value]]
        simp
      | error error => simp

/-- Trying as often as is said is trying once and then as often as is left, unless that failed. -/
theorem attempts_succ (decoder : Decoder α) (count : Nat) (source : Source) :
    decoder.attempts (count + 1) source =
      match decoder.read source with
      | (.ok value, after) =>
        let (outcome, last) := decoder.attempts count after
        ((value :: outcome.1, outcome.2), last)
      | (.error error, after) => (([], some error), after) := by
  rw [attempts, repeatFrom]
  obtain ⟨result, after⟩ := decoder.read source
  cases result with
  | error error => rfl
  | ok value => exact repeatFrom_done decoder count [value] after

@[simp] theorem replicate_zero (decoder : Decoder α) : replicate 0 decoder = pure [] := rfl

private theorem read_replicate (count : Nat) (decoder : Decoder α) (source : Source) :
    (replicate count decoder).read source =
      match decoder.attempts count source with
      | ((values, none), after) => (.ok values, after)
      | ((_, some error), after) => (.error error, after) := rfl

theorem replicate_succ (count : Nat) (decoder : Decoder α) :
    replicate (count + 1) decoder = do
      let value ← decoder
      let values ← replicate count decoder
      return value :: values := by
  refine ext_read fun source => ?_
  rw [read_bind, read_replicate, attempts_succ]
  obtain ⟨result, after⟩ := decoder.read source
  cases result with
  | error error => rfl
  | ok value =>
    simp only [read_bind, read_replicate]
    obtain ⟨⟨values, failure⟩, final⟩ := decoder.attempts count after
    cases failure <;> rfl

theorem read_entriesInto (shape : MapShape) (k : Ty) (entry : Decoder (k.Value × β)) (target : List (k.Value × β))
    (source : Source) :
    (match entry.entriesInto shape k target source with
      | ((.ok (), map), after) => (.ok map, after)
      | ((.error error, _), after) => (.error error, after)) =
      Decoder.read (do
        let entries ← replicate (← length) entry
        return shape.insertAll k target entries) source := by
  rw [read_bind]
  simp only [read, entriesInto]
  obtain ⟨result, after⟩ := length source
  cases result with
  | error error => rfl
  | ok count =>
    change _ = (replicate count entry >>= _).read after
    rw [read_bind, read_replicate]
    dsimp only
    obtain ⟨⟨values, failure⟩, final⟩ := entry.attempts count after
    cases failure <;> rfl

/-- Putting entries into a map as they come is reading all of them and putting them in then. -/
theorem fill_eq (shape : MapShape) (k : Ty) (entry : Decoder (k.Value × β)) (count : Nat) (map : List (k.Value × β)) :
    fill shape k entry count map = do
      let entries ← replicate count entry
      return shape.insertAll k map entries := by
  induction count generalizing map with
  | zero => rfl
  | succ count ih =>
    rw [fill, replicate_succ, bind_assoc]
    refine bind_congr fun first => ?_
    rw [ih, bind_assoc]
    rfl

/-- A map is a count and as many entries, taken in one after the other. -/
theorem entries_eq (shape : MapShape) (k : Ty) (entry : Decoder (k.Value × β)) :
    entries shape k entry = do
      let entries ← replicate (← length) entry
      return shape.insertAll k [] entries := by
  unfold entries
  exact bind_congr fun count => fill_eq shape k entry count []

/-- Reading a map is reading its entries into an empty one. -/
theorem read_entries (shape : MapShape) (k : Ty) (entry : Decoder (k.Value × β)) (source : Source) :
    (entries shape k entry).read source = match entry.entriesInto shape k [] source with
      | ((.ok (), map), after) => (.ok map, after)
      | ((.error error, _), after) => (.error error, after) := by
  rw [entries_eq]
  exact (read_entriesInto shape k entry [] source).symm

end TypedWire.Decoder

theorem TypedWire.Codec.ofBytes_eq_ok_iff {t : Ty} {codec : Codec t} {bytes : List Byte} {v : t.Value} :
    codec.ofBytes bytes = .ok v ↔
      ∃ after, codec.read (.ofBytes bytes .standard) = (.ok v, after) ∧ after.reader.held = [] := by
  unfold ofBytes
  obtain ⟨result, after⟩ := codec.read (.ofBytes bytes .standard)
  cases result with
  | error error => simp
  | ok value => cases left : after.reader.held <;> simp [and_assoc, left]
