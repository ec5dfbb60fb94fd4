import TypedWire.Proofs.Reading

/-! A scan tells how many bytes make up the longest beginning that is well formed, and what is wrong behind
that. UTF-8 here is that of the standard library, character by character. -/

namespace TypedWire

namespace Utf8

/-! ### What UTF-8 is -/

/-- The UTF-8 of a character. -/
def ofScalar (c : Char) : List Byte := (String.utf8EncodeChar c).map UInt8.toBitVec

/-- The bytes of a text in memory. -/
def ofString (text : String) : List Byte := text.toUTF8.data.toList.map UInt8.toBitVec

/-- The bytes are those of some characters, one behind the other. -/
def WellFormed (bytes : List Byte) : Prop := ∃ text : List Char, bytes = text.flatMap ofScalar

/-- The bytes are those of a character, or a beginning of them. -/
def Begins (part : List Byte) : Prop := ∃ c, part <+: ofScalar c

/-- The longest part at the front that begins a character has `count` bytes; it has one if not even the first byte
begins a character. -/
structure MaximalSubpart (bytes : List Byte) (count : Nat) : Prop where
  positive : 0 < count
  within : count ≤ bytes.length
  begins : count = 1 ∨ Begins (bytes.take count)
  longest : ∀ more ≤ bytes.length, Begins (bytes.take more) → more ≤ count

end Utf8

/-- What the fault says of the bytes is so. -/
structure Utf8Fault.Tells (fault : Utf8Fault) (bytes : List Byte) : Prop where
  wellFormed : Utf8.WellFormed (bytes.take fault.validUpTo)
  within : fault.validUpTo < bytes.length
  longest : ∀ count ≤ bytes.length, Utf8.WellFormed (bytes.take count) → count ≤ fault.validUpTo
  cut : fault.errorLength = none ↔
    bytes.drop fault.validUpTo ≠ [] ∧
      ∃ c, bytes.drop fault.validUpTo <+: Utf8.ofScalar c ∧ bytes.drop fault.validUpTo ≠ Utf8.ofScalar c
  wrong : ∀ count, fault.errorLength = some count →
    1 ≤ count ∧ count ≤ 3 ∧ Utf8.MaximalSubpart (bytes.drop fault.validUpTo) count

namespace Utf8

theorem encodeChar_eq_ofScalar (c : Char) : encodeChar c = ofScalar c := by
  have scalar := toNat_char c
  unfold encodeChar ofScalar String.utf8EncodeChar continuation
  change _ = List.map UInt8.toBitVec (if c.toNat ≤ 127 then [UInt8.ofNat c.toNat]
    else if c.toNat ≤ 2047 then [UInt8.ofNat (c.toNat / 64 % 32 + 192), UInt8.ofNat (c.toNat % 64 + 128)]
    else if c.toNat ≤ 65535 then [UInt8.ofNat (c.toNat / 4096 % 16 + 224), UInt8.ofNat (c.toNat / 64 % 64 + 128),
      UInt8.ofNat (c.toNat % 64 + 128)]
    else [UInt8.ofNat (c.toNat / 262144 % 8 + 240), UInt8.ofNat (c.toNat / 4096 % 64 + 128),
      UInt8.ofNat (c.toNat / 64 % 64 + 128), UInt8.ofNat (c.toNat % 64 + 128)])
  generalize c.toNat = n at scalar
  simp only
  by_cases one : n < 0x80
  · rw [if_pos one, if_pos (by omega)]
    rfl
  by_cases two : n < 0x800
  · rw [if_neg one, if_pos two, if_neg (by omega), if_pos (by omega), show n / 64 % 32 + 192 = 192 + n / 64 by omega,
      Nat.add_comm (n % 64)]
    rfl
  by_cases three : n < 0x10000
  · rw [if_neg one, if_neg two, if_pos three, if_neg (by omega), if_neg (by omega), if_pos (by omega),
      show n / 4096 % 16 + 224 = 224 + n / 4096 by omega, Nat.add_comm (n / 64 % 64), Nat.add_comm (n % 64)]
    rfl
  · rw [if_neg one, if_neg two, if_neg three, if_neg (by omega), if_neg (by omega), if_neg (by omega),
      show n / 262144 % 8 + 240 = 240 + n / 262144 by omega, Nat.add_comm (n / 4096 % 64), Nat.add_comm (n / 64 % 64),
      Nat.add_comm (n % 64)]
    rfl

theorem flatMap_encodeChar (text : List Char) : text.flatMap encodeChar = text.flatMap ofScalar :=
  congrArg text.flatMap (funext encodeChar_eq_ofScalar)

theorem encode_eq_ofString (text : String) : encode text = ofString text := by
  have bytes : text.toUTF8.data.toList = text.toList.flatMap String.utf8EncodeChar := by
    rw [String.toUTF8_eq_toByteArray, ← String.utf8Encode_toList, List.utf8Encode, List.data_toByteArray]
  rw [encode, ofString, bytes, List.map_flatMap]
  exact flatMap_encodeChar text.toList

theorem wellFormed_encode (text : String) : WellFormed (encode text) := ⟨text.toList, flatMap_encodeChar text.toList⟩

theorem decode_eq_ok_iff {bytes : List Byte} {text : String} : decode bytes = .ok text ↔ ofString text = bytes := by
  rw [← encode_eq_ofString]
  constructor
  · exact encode_of_decode
  · rintro rfl
    exact decode_encode text

/-- Well-formed bytes are read as a text, and no others. -/
theorem wellFormed_iff {bytes : List Byte} : WellFormed bytes ↔ ∃ text, decode bytes = .ok text := by
  constructor
  · rintro ⟨text, rfl⟩
    have whole : encode (String.ofList text) = text.flatMap ofScalar := by
      rw [encode, String.toList_ofList, flatMap_encodeChar]
    exact ⟨_, whole ▸ decode_encode (String.ofList text)⟩
  · rintro ⟨text, read⟩
    exact encode_of_decode read ▸ wellFormed_encode text

/-! ### Where scans stop -/

variable {start index : Nat} {done : List Char} {bytes front part : List Byte} {pending : Pending}
  {length : Option Nat}

theorem Begins.shorter (begins : Begins bytes) (before : part <+: bytes) : Begins part := by
  obtain ⟨c, whole⟩ := begins
  exact ⟨c, before.trans whole⟩

theorem scan_text_append (start : Nat) (done text : List Char) (rest : List Byte) :
    scan start done none (text.flatMap encodeChar ++ rest) =
      scan (start + (text.flatMap encodeChar).length) (text.reverse ++ done) none rest := by
  induction text generalizing start done with
  | nil => rfl
  | cons c text ih =>
    rw [List.flatMap_cons, List.append_assoc, scan_encodeChar, ih, List.length_append, Nat.add_assoc,
      List.reverse_cons, List.append_assoc, List.singleton_append]

/-- No scan stops before where it began. -/
theorem start_le_of_scan {fault : Utf8Fault} (stops : scan start done none bytes = .error fault) :
    start ≤ fault.validUpTo := by
  obtain ⟨text, rest, -, ⟨-, read⟩ | ⟨length, stopped⟩⟩ := scan_eq start done bytes
  · cases stops.symm.trans read
  · cases stops.symm.trans stopped
    exact Nat.le_add_right _ _

theorem scan_append_of_stop {pending : Option Pending} {count : Nat} (more : List Byte)
    (stops : scan start done pending bytes = .error ⟨index, some count⟩) :
    scan start done pending (bytes ++ more) = .error ⟨index, some count⟩ := by
  fun_induction scan start done pending bytes with
  | case1 => cases stops
  | case2 => cases stops
  | case3 start done byte rest c leads ih =>
    rw [List.cons_append, scan, leads]
    exact ih stops
  | case4 start done byte rest p leads ih =>
    rw [List.cons_append, scan, leads]
    exact ih stops
  | case5 start done byte rest leads =>
    rw [List.cons_append, scan, leads]
    exact stops
  | case6 start done p byte rest within value last ih =>
    rw [List.cons_append, scan, if_pos within, if_pos last]
    exact ih stops
  | case7 start done p byte rest within value further ih =>
    rw [List.cons_append, scan, if_pos within, if_neg further]
    exact ih stops
  | case8 start done p byte rest outside =>
    rw [List.cons_append, scan, if_neg outside]
    exact stops

/-- What a scan does not read past are not the bytes of a character. -/
theorem ne_ofScalar_of_scan {fault : Utf8Fault} (stops : scan start done none bytes = .error fault) (c : Char) :
    bytes ≠ ofScalar c := by
  rintro rfl
  rw [← encodeChar_eq_ofScalar, ← List.append_nil (encodeChar c), scan_encodeChar, scan] at stops
  cases stops

/-- Where a scan finds a sequence to go wrong, no character begins with the bytes that it has read. -/
theorem not_begins_of_stop {count : Nat} (stops : scan start done none bytes = .error ⟨index, some count⟩) :
    ¬Begins bytes := by
  rintro ⟨c, more, whole⟩
  exact ne_ofScalar_of_scan (scan_append_of_stop more stops) c whole

/-- A scan that has begun at `start` and read `front` is inside a sequence, of which `pending` is known. -/
structure Inside (start : Nat) (done : List Char) (front : List Byte) (pending : Pending) : Prop where
  reached : ∀ more, scan start done none (front ++ more) = scan start done (some pending) more
  seen : pending.seen = front.length
  some_seen : 0 < pending.seen
  owed : 0 < pending.owed
  bound : pending.seen + pending.owed ≤ 4
  room : pending.low ≤ pending.high
  byte : pending.high ≤ 0xBF

theorem inside_of_lead {byte : Byte} (opens : lead byte = .opens pending) : Inside start done [byte] pending := by
  have shape : pending.seen = 1 ∧ 0 < pending.owed ∧ pending.owed ≤ 3 ∧ pending.low ≤ pending.high ∧
      pending.high ≤ 0xBF := by
    unfold lead at opens
    simp only at opens
    split_ifs at opens <;> cases opens <;> simp
  obtain ⟨seen, owed, few, room, byte⟩ := shape
  refine ⟨fun more => ?_, seen, by omega, owed, by omega, room, byte⟩
  rw [List.singleton_append, scan, opens]

theorem Inside.onward {byte : Byte} (inside : Inside start done front pending)
    (within : pending.low ≤ byte.toNat ∧ byte.toNat ≤ pending.high) (further : ¬pending.owed ≤ 1) :
    Inside start done (front ++ [byte])
      ⟨pending.owed - 1, 0x80, 0xBF, pending.seen + 1, pending.value * 64 + byte.toNat % 64⟩ := by
  obtain ⟨reached, seen, some_seen, owed, bound, room, -⟩ := inside
  refine ⟨fun more => ?_, by simp [seen], Nat.succ_pos _, by simp only; omega, by simp only; omega, by simp, by simp⟩
  rw [List.append_assoc, List.singleton_append, reached, scan, if_pos within, if_neg further]

/-- What has been read of a sequence begins a character, since bytes that may follow complete it. -/
theorem Inside.begins (inside : Inside start done front pending) : Begins front := by
  induction owed : pending.owed generalizing front pending with
  | zero => exact absurd owed (Nat.ne_of_gt inside.owed)
  | succ owed' ih =>
    -- The least byte that may come next.
    obtain ⟨byte, least⟩ : ∃ byte : Byte, byte.toNat = pending.low := by
      have room := inside.room
      have highest := inside.byte
      exact ⟨BitVec.ofNat 8 pending.low, by rw [BitVec.toNat_ofNat]; omega⟩
    have within : pending.low ≤ byte.toNat ∧ byte.toNat ≤ pending.high := by
      rw [least]
      exact ⟨Nat.le_refl _, inside.room⟩
    have before : front <+: front ++ [byte] := List.prefix_append ..
    by_cases last : pending.owed ≤ 1
    · have read := inside.reached [byte]
      rw [scan, if_pos within, if_pos last] at read
      simp only [scan] at read
      obtain ⟨text, rest, split, ⟨rfl, scanned⟩ | ⟨length, stops⟩⟩ := scan_eq start done (front ++ [byte])
      · rw [scanned, Except.ok.injEq, List.reverse_cons, List.append_cancel_left_eq] at read
        rw [read, List.append_nil, List.flatMap_singleton, encodeChar_eq_ofScalar] at split
        exact ⟨_, split ▸ before⟩
      · cases read.symm.trans stops
    · exact (ih (inside.onward within last) (by simp [owed])).shorter before

/-- What a scan says of bytes of which it reads no character. -/
structure Stops (bytes : List Byte) (length : Option Nat) : Prop where
  ends : length = none ↔ Begins bytes
  subpart : ∀ count, length = some count → count ≤ 3 ∧ MaximalSubpart bytes count

theorem stops_of_wrong {byte : Byte} (begins : Begins front) (wrong : ¬Begins (front ++ [byte]))
    (few : front.length ≤ 3) (rest : List Byte) : Stops (front ++ byte :: rest) (some (max 1 front.length)) := by
  have split : front ++ byte :: rest = front ++ [byte] ++ rest := by simp
  have whole : ¬Begins (front ++ byte :: rest) := fun begins => wrong (begins.shorter ⟨rest, split.symm⟩)
  refine ⟨by simp [whole], ?_⟩
  rintro count ⟨⟩
  refine ⟨by omega, by omega, by rw [List.length_append, List.length_cons]; omega, ?_, fun more _ longer => ?_⟩
  · by_cases empty : front.length = 0
    · exact .inl (by omega)
    · right
      rwa [Nat.max_eq_right (Nat.pos_of_ne_zero empty), List.take_left]
  · by_contra! beyond
    have reaches : (front ++ [byte]).length ≤ more := by
      rw [List.length_append, List.length_singleton]
      omega
    exact wrong (longer.shorter (split ▸ List.prefix_take_iff.mpr ⟨List.prefix_append .., reaches⟩))

theorem Inside.stops (inside : Inside start done front pending)
    (stops : scan start done (some pending) bytes = .error ⟨start, length⟩) : Stops (front ++ bytes) length := by
  induction bytes generalizing front pending with
  | nil =>
    cases stops
    rw [List.append_nil]
    exact ⟨by simp [inside.begins], by simp⟩
  | cons byte rest ih =>
    rw [scan] at stops
    by_cases within : pending.low ≤ byte.toNat ∧ byte.toNat ≤ pending.high
    · rw [if_pos within] at stops
      by_cases last : pending.owed ≤ 1
      · rw [if_pos last] at stops
        have moved := start_le_of_scan stops
        simp only at moved
        omega
      · rw [if_neg last] at stops
        have onward := ih (inside.onward within last) stops
        rwa [List.append_assoc, List.singleton_append] at onward
    · rw [if_neg within] at stops
      cases stops
      have stopped : scan start done none (front ++ [byte]) = .error ⟨start, some pending.seen⟩ := by
        rw [inside.reached, scan, if_neg within]
      have counted : pending.seen = max 1 front.length := by
        have seen := inside.seen
        have some_seen := inside.some_seen
        omega
      have few : front.length ≤ 3 := by
        have seen := inside.seen
        have owed := inside.owed
        have bound := inside.bound
        omega
      rw [counted]
      exact stops_of_wrong inside.begins (not_begins_of_stop stopped) few rest

theorem stops_of_scan (stops : scan start done none bytes = .error ⟨start, length⟩) : Stops bytes length := by
  cases bytes with
  | nil => cases stops
  | cons byte rest =>
    cases leads : lead byte with
    | single c =>
      rw [scan, leads] at stops
      have moved := start_le_of_scan stops
      simp only at moved
      omega
    | opens pending =>
      rw [scan, leads] at stops
      exact (inside_of_lead leads).stops stops
    | invalid =>
      have stopped : scan start done none [byte] = .error ⟨start, some 1⟩ := by
        rw [scan, leads]
      rw [scan, leads] at stops
      cases stops
      exact stops_of_wrong ⟨'a', List.nil_prefix⟩ (not_begins_of_stop stopped) (Nat.zero_le _) rest

/-- A scan reads past every well-formed beginning. -/
theorem count_le_of_scan {fault : Utf8Fault} (stops : scan 0 [] none bytes = .error fault) {count : Nat}
    (within : count ≤ bytes.length) (wellFormed : WellFormed (bytes.take count)) : count ≤ fault.validUpTo := by
  obtain ⟨text, before⟩ := wellFormed
  rw [← flatMap_encodeChar] at before
  rw [← List.take_append_drop count bytes, before, scan_text_append, ← before, List.length_take_of_le within,
    Nat.zero_add] at stops
  exact start_le_of_scan stops

/-- Bytes that are not read as a text are well formed just up to the fault, which tells what is wrong there. -/
theorem tells_of_decode {fault : Utf8Fault} (refused : decode bytes = .error fault) : fault.Tells bytes := by
  obtain ⟨text, rest, rfl, ⟨-, read⟩ | ⟨length, stopped⟩⟩ := scan_eq 0 [] bytes
  · rw [decode, read] at refused
    cases refused
  rw [decode, stopped] at refused
  cases refused
  rw [Nat.zero_add] at stopped ⊢
  have behind := stopped
  rw [scan_text_append, Nat.zero_add] at behind
  have stops := stops_of_scan behind
  have some_left : rest ≠ [] := by
    rintro rfl
    cases behind
  have split : (text.flatMap encodeChar ++ rest).drop (text.flatMap encodeChar).length = rest := List.drop_left
  refine ⟨⟨text, List.take_left.trans (flatMap_encodeChar text)⟩, ?_, ?_, ?_, ?_⟩
  · rw [List.length_append]
    exact Nat.lt_add_of_pos_right (List.length_pos_iff.mpr some_left)
  · intro count within wellFormed
    exact count_le_of_scan stopped within wellFormed
  · rw [split]
    refine stops.ends.trans ⟨?_, ?_⟩
    · rintro ⟨c, before⟩
      exact ⟨some_left, c, before, ne_ofScalar_of_scan behind c⟩
    · rintro ⟨-, c, before, -⟩
      exact ⟨c, before⟩
  · rw [split]
    intro count length
    obtain ⟨few, maximal⟩ := stops.subpart count length
    exact ⟨maximal.positive, few, maximal⟩

end Utf8

namespace Codec

variable {source : Source} {limits : DecodeLimits} {place : Nat} {announced payload rest : List Byte}

open Decoder in
theorem read_text (serves : source.Serves limits place (announced ++ payload ++ rest))
    (announces : Varint.Denotes announced payload.length) (fits : payload.length ≤ limits.maxLength.toNat) :
    ∃ after : Source, after.Serves limits (place + announced.length + payload.length) rest ∧
      Codec.text.read source = match Utf8.decode payload with
        | .ok value => (.ok value, after)
        | .error fault => (.error (.invalidUtf8 (place + announced.length) fault), after) := by
  rw [List.append_assoc] at serves
  obtain ⟨between, counted, serves'⟩ := reads_length fits announces _ _ _ serves
  obtain ⟨after, taken, serves''⟩ := reads_block payload _ _ _ serves'
  refine ⟨after, serves'', ?_⟩
  change Decoder.text.read source = _
  rw [Decoder.text, read_bind, counted]
  simp only
  rw [read_bind, read_offset]
  simp only
  rw [read_bind, taken, serves'.place]
  simp only
  cases Utf8.decode payload <;> rfl

/-- A payload that is within the limit and there in full is read as a text exactly if it is well-formed UTF-8, and
then the text has just these bytes. Any other payload is taken whole too, and refused at its first byte: with the
length of its longest well-formed beginning, and with what is wrong behind that. -/
theorem text_of_wellFormed (serves : source.Serves limits place (announced ++ payload ++ rest))
    (announces : Varint.decode announced = .ok (payload.length, announced.length))
    (fits : payload.length ≤ limits.maxLength.toNat) :
    ((∃ text after, Codec.text.read source = (.ok text, after)) ↔ Utf8.WellFormed payload) ∧
      (∀ text after, Codec.text.read source = (.ok text, after) → Utf8.ofString text = payload ∧
        after.Serves limits (place + announced.length + payload.length) rest) ∧
      (¬Utf8.WellFormed payload → ∃ fault after,
        Codec.text.read source = (.error (.invalidUtf8 (place + announced.length) fault), after) ∧
          after.Serves limits (place + announced.length + payload.length) rest ∧ fault.Tells payload) := by
  obtain ⟨after, serves', read⟩ := read_text serves announces fits
  rw [Utf8.wellFormed_iff, read]
  cases decoded : Utf8.decode payload with
  | ok text =>
    refine ⟨⟨fun _ => ⟨text, rfl⟩, fun _ => ⟨text, after, rfl⟩⟩, ?_, fun refused => (refused ⟨text, rfl⟩).elim⟩
    rintro text' after' same
    cases same
    exact ⟨Utf8.decode_eq_ok_iff.mp decoded, serves'⟩
  | error fault =>
    refine ⟨by simp, by simp, fun _ => ⟨fault, after, rfl, serves', Utf8.tells_of_decode decoded⟩⟩

/-- A letter and a sign cut short after two of its four bytes by another letter, with one more byte behind the payload;
and a letter and a sign of which the payload has two bytes. -/
theorem text_of_wellFormed_cut :
    (∃ after, Codec.text.read (.ofBytes [4, 0x61, 0xF0, 0x90, 0x41, 7] .standard) =
        (.error (.invalidUtf8 1 ⟨1, some 2⟩), after) ∧ after.Serves .standard 5 [7] ∧
      (Utf8Fault.mk 1 (some 2)).Tells [0x61, 0xF0, 0x90, 0x41]) ∧
      (Utf8Fault.mk 1 none).Tells [0x61, 0xE2, 0x82] ∧ Utf8.WellFormed [0x61, 0xE2, 0x82, 0xAC] := by
  have wrong : Codec.text.read (.ofBytes [4, 0x61, 0xF0, 0x90, 0x41, 7] .standard) =
      (.error (.invalidUtf8 1 ⟨1, some 2⟩), ⟨⟨[.chunk [7]], .endOfInput, []⟩, 5, .standard⟩) := rfl
  have short : Codec.text.read (.ofBytes [3, 0x61, 0xE2, 0x82] .standard) =
      (.error (.invalidUtf8 1 ⟨1, none⟩), ⟨⟨[], .endOfInput, []⟩, 4, .standard⟩) := rfl
  obtain ⟨reads, -, refuses⟩ := @text_of_wellFormed _ .standard 0 [4] [0x61, 0xF0, 0x90, 0x41] [7]
    (Source.serves_ofBytes [4, 0x61, 0xF0, 0x90, 0x41, 7] .standard) rfl (by decide)
  obtain ⟨reads', -, refuses'⟩ := @text_of_wellFormed _ .standard 0 [3] [0x61, 0xE2, 0x82] []
    (Source.serves_ofBytes [3, 0x61, 0xE2, 0x82] .standard) rfl (by decide)
  obtain ⟨whole, -, -⟩ := @text_of_wellFormed _ .standard 0 [4] [0x61, 0xE2, 0x82, 0xAC] []
    (Source.serves_ofBytes [4, 0x61, 0xE2, 0x82, 0xAC] .standard) rfl (by decide)
  obtain ⟨fault, after, read, serves, tells⟩ := refuses fun wellFormed => by
    obtain ⟨text, after, read⟩ := reads.mpr wellFormed
    cases wrong.symm.trans read
  obtain ⟨fault', after', read', -, tells'⟩ := refuses' fun wellFormed => by
    obtain ⟨text, after, read⟩ := reads'.mpr wellFormed
    cases short.symm.trans read
  cases wrong.symm.trans read
  cases short.symm.trans read'
  exact ⟨⟨_, wrong, serves, tells⟩, tells', whole.mp ⟨_, _, rfl⟩⟩

end Codec
end TypedWire
