import TypedWire.Codec.Encode

/-! Playing an emission is playing its parts one after the other, up to the first error. So each codec
writes by the writes of its components, in the order of the wire. -/

namespace TypedWire

/-- An action on a sink, which fails or does not. -/
abbrev Encoder := ExceptT EncodeError (StateM Sink) Unit

/-- Names the component that is written. -/
def Encoder.labeled (label : String) (encoder : Encoder) : Encoder := fun sink =>
  match encoder sink with
  | (.ok (), after) => (.ok (), after)
  | (.error error, after) => (.error (error.labeled label), after)

namespace Sink

variable {α : Type}

theorem playAll_append (front back : List Write) (sink : Sink) :
    playAll (front ++ back) sink = match playAll front sink with
      | (.ok (), between) => playAll back between
      | (.error error, after) => (.error error, after) := by
  induction front generalizing sink with
  | nil => rfl
  | cons write rest ih =>
    rw [List.cons_append, playAll, playAll]
    rcases sink.write write.data with ⟨error | _, between⟩
    · rfl
    · exact ih between

/-- An emission behind another one is played where that one ended, if it was played. -/
theorem play_andThen (first second : Emission) (sink : Sink) :
    sink.play (first.andThen second) = match sink.play first with
      | (.ok (), between) => between.play second
      | (.error error, after) => (.error error, after) := by
  obtain ⟨items, _ | failure⟩ := first
  · simp only [play, Output.andThen, playAll_append]
    rcases playAll items sink with ⟨error | _, between⟩ <;> rfl
  · simp only [play, Output.andThen]
    rcases playAll items sink with ⟨error | _, between⟩ <;> rfl

theorem playAll_labeled (label : String) (writes : List Write) (sink : Sink) :
    playAll (writes.map fun write => ⟨label :: write.path, write.data⟩) sink = match playAll writes sink with
      | (.ok (), after) => (.ok (), after)
      | (.error error, after) => (.error (error.labeled label), after) := by
  induction writes generalizing sink with
  | nil => rfl
  | cons write rest ih =>
    rw [List.map_cons, playAll, playAll]
    rcases sink.write write.data with ⟨error | _, between⟩
    · rfl
    · exact ih between

theorem play_labeled (label : String) (emission : Emission) (sink : Sink) :
    sink.play (emission.labeled label) = match sink.play emission with
      | (.ok (), after) => (.ok (), after)
      | (.error error, after) => (.error (error.labeled label), after) := by
  obtain ⟨items, failure⟩ := emission
  simp only [play, Emission.labeled, playAll_labeled]
  rcases playAll items sink with ⟨error | _, between⟩
  · rfl
  · cases failure <;> rfl

def player (emission : Emission) : Encoder := fun sink => sink.play emission

theorem player_raw (data : List Byte) : player (.raw data) = Sink.write data := by
  funext sink
  simp only [player, play, Emission.raw, Output.emit, playAll]
  rcases sink.write data with ⟨error | _, after⟩ <;> rfl

theorem player_andThen (first second : Emission) :
    player (first.andThen second) = (do player first; player second) := by
  funext sink
  rw [player, play_andThen]
  simp only [player, bind, ExceptT.bind, ExceptT.mk, StateT.bind, ExceptT.bindCont]
  rcases sink.play first with ⟨error | _, between⟩ <;> rfl

theorem player_labeled (label : String) (emission : Emission) :
    player (emission.labeled label) = (player emission).labeled label :=
  funext fun sink => play_labeled label emission sink

theorem player_concat (walk : α → Emission) (elements : List α) :
    player (.concat walk elements) = forM elements fun x => player (walk x) := by
  induction elements with
  | nil => rfl
  | cons x rest ih => rw [Output.concat_cons, player_andThen, ih, List.forM_cons]

end Sink

namespace Codec

open Sink (player player_raw player_andThen player_labeled player_concat)

variable {s t u : Ty}

theorem write_eq_player (codec : Codec t) (v : t.Value) : codec.write v = player (codec.encode v) := rfl

private theorem player_payload (data : List Byte) :
    player (.payload data) = (do Sink.write (Varint.encode data.length); Sink.write data : Encoder) := by
  rw [Emission.payload, player_andThen, Emission.lengthPrefix, Emission.varint, player_raw, player_raw]

theorem write_int (sign : Sign) (w : Width) (v : Word w) :
    (Codec.int sign w).write v = Sink.write (bigEndian w.bytes v.toNat) := player_raw _

theorem write_float (p : Precision) (v : Word p.width) :
    (Codec.float p).write v = Sink.write (bigEndian p.width.bytes v.toNat) := player_raw _

theorem write_bool (v : Bool) : Codec.bool.write v = Sink.write [Emission.flagByte v] := player_raw _

theorem write_unit : Codec.unit.write () = (pure () : Encoder) := rfl

theorem write_text (v : String) :
    Codec.text.write v = (do
      Sink.write (Varint.encode (Utf8.encode v).length)
      Sink.write (Utf8.encode v) : Encoder) := player_payload _

theorem write_bytes (v : List Byte) :
    Codec.bytes.write v = (do Sink.write (Varint.encode v.length); Sink.write v : Encoder) := player_payload v

theorem write_compact (name : String) (objection : Option String) (v : Word .four) :
    (Codec.compact name objection).write v = Sink.write (Varint.encode v.toNat) := player_raw _

theorem write_derived (name : String) (codec : Codec s) (toBase : t.Value → Except Refusal s.Value)
    (fromBase : s.Value → Except String t.Value) (v : t.Value) :
    (Codec.derived name codec toBase fromBase).write v = (match toBase v with
      | .ok base => codec.write base
      | .error refusal => throw (.mapping refusal) : Encoder) := by
  rw [write_eq_player, encode]
  cases toBase v <;> rfl

theorem write_terse (name : String) (objection : Option String) (codec : Codec t) (v : t.Value) :
    (Codec.terse name objection codec).write v = codec.write v := rfl

theorem write_seq (shape : SeqShape) (codec : Codec t) (elements : List t.Value) :
    (Codec.seq shape codec).write elements = (do
      Sink.write (Varint.encode elements.length)
      forM elements fun x => codec.write x : Encoder) := by
  rw [write_eq_player, encode, player_andThen, Emission.lengthPrefix, Emission.varint, player_raw, player_concat]
  rfl

theorem write_map (shape : MapShape) (key : Codec s) (value : Codec t) (entries : List (s.Value × t.Value)) :
    (Codec.map shape key value).write entries = (do
      Sink.write (Varint.encode entries.length)
      forM entries fun entry => do
        Encoder.labeled "key" (key.write entry.1)
        Encoder.labeled "value" (value.write entry.2) : Encoder) := by
  rw [write_eq_player, encode, player_andThen, Emission.lengthPrefix, Emission.varint, player_raw, player_concat]
  simp only [player_andThen, player_labeled]
  rfl

theorem write_none (codec : Codec t) : (Codec.option codec).write none = Sink.write [Emission.flagByte false] :=
  player_raw _

theorem write_some (codec : Codec t) (v : t.Value) :
    (Codec.option codec).write (some v) = (do
      Sink.write [Emission.flagByte true]
      Encoder.labeled "value" (codec.write v) : Encoder) := by
  rw [write_eq_player, encode, player_andThen, Emission.flag, player_raw, player_labeled]
  rfl

theorem write_pair (first : Codec s) (second : Codec t) (v : s.Value × t.Value) :
    (Codec.pair first second).write v = (do
      Encoder.labeled "first" (first.write v.1)
      Encoder.labeled "second" (second.write v.2) : Encoder) := by
  rw [write_eq_player, encode, player_andThen, player_labeled, player_labeled]
  rfl

theorem write_triple (first : Codec s) (second : Codec t) (third : Codec u) (v : s.Value × t.Value × u.Value) :
    (Codec.triple first second third).write v = (do
      Encoder.labeled "first" (first.write v.1)
      Encoder.labeled "second" (second.write v.2.1)
      Encoder.labeled "third" (third.write v.2.2) : Encoder) := by
  rw [write_eq_player, encode, player_andThen, player_andThen, player_labeled, player_labeled, player_labeled]
  rfl

end Codec
end TypedWire
