import TypedWire.Emission
import TypedWire.Proofs.DecoderParts
import TypedWire.Proofs.LengthPrefix
import TypedWire.Proofs.Numerals
import TypedWire.Proofs.SteadySource
import TypedWire.Proofs.Text
import Mathlib.Data.List.Forall2

/-! A decoder reads some bytes as a value if, on every source that delivers these bytes and then anything
else, it yields that value and leaves the rest. This is how the parts of an encoding are read back. -/

namespace TypedWire.Decoder

variable {α β : Type} {limits : DecodeLimits}

/-- At the front of whatever a source delivers, the decoder takes `bytes` for `value` and nothing more. -/
def Reads (limits : DecodeLimits) (decoder : Decoder α) (bytes : List Byte) (value : α) : Prop :=
  ∀ (source : Source) (place : Nat) (rest : List Byte), source.Serves limits place (bytes ++ rest) →
    ∃ after, decoder.read source = (.ok value, after) ∧ after.Serves limits (place + bytes.length) rest

theorem reads_pure (value : α) : Reads limits (pure value) [] value := by
  intro source place rest serves
  exact ⟨source, rfl, serves⟩

theorem Reads.bind {first : Decoder α} {second : α → Decoder β} {front back : List Byte} {a : α} {b : β}
    (one : Reads limits first front a) (two : Reads limits (second a) back b) :
    Reads limits (first >>= second) (front ++ back) b := by
  intro source place rest serves
  rw [List.append_assoc] at serves
  obtain ⟨between, read, serves⟩ := one _ _ _ serves
  obtain ⟨after, read', serves⟩ := two _ _ _ serves
  refine ⟨after, ?_, ?_⟩
  · rw [read_bind, read]
    exact read'
  · rwa [List.length_append, ← Nat.add_assoc]

/-- What the second decoder does may cost no bytes. -/
theorem Reads.check {first : Decoder α} {second : α → Decoder β} {bytes : List Byte} {a : α} {b : β}
    (one : Reads limits first bytes a) (two : Reads limits (second a) [] b) :
    Reads limits (first >>= second) bytes b := by
  have both := one.bind two
  rwa [List.append_nil] at both

theorem Reads.map {decoder : Decoder α} {bytes : List Byte} {a : α} (f : α → β)
    (reads : Reads limits decoder bytes a) : Reads limits (do return f (← decoder)) bytes (f a) :=
  reads.check (reads_pure (f a))

theorem Reads.labeled {decoder : Decoder α} {bytes : List Byte} {value : α} (label : String)
    (reads : Reads limits decoder bytes value) : Reads limits (decoder.labeled label) bytes value := by
  intro source place rest serves
  obtain ⟨after, read, serves⟩ := reads _ _ _ serves
  exact ⟨after, by rw [read_labeled, read], serves⟩

theorem Reads.of_offset {next : Nat → Decoder α} {bytes : List Byte} {value : α}
    (reads : ∀ start, Reads limits (next start) bytes value) : Reads limits (offset >>= next) bytes value := by
  intro source place rest serves
  exact reads source.offset _ _ _ serves

/-- What a codec reads as a value it accepts for that. -/
theorem Reads.accepts {t : Ty} {codec : Codec t} {bytes : List Byte} {v : t.Value}
    (reads : Reads .standard codec.decode bytes v) : codec.ofBytes bytes = .ok v := by
  have serves := Source.serves_ofBytes bytes .standard
  rw [← List.append_nil bytes] at serves
  obtain ⟨after, read, serves⟩ := reads _ _ _ serves
  rw [List.append_nil] at read
  exact Codec.ofBytes_eq_ok_iff.mpr ⟨after, read, serves.holds⟩

theorem reads_exactly (bytes : List Byte) : Reads limits (exactly bytes.length) bytes bytes := by
  intro source place rest serves
  obtain ⟨after, read, serves⟩ := read_exactly serves (by simp : bytes.length ≤ (bytes ++ rest).length)
  exact ⟨after, by simpa using read, by simpa using serves⟩

theorem reads_block (bytes : List Byte) : Reads limits (block bytes.length) bytes bytes := by
  intro source place rest serves
  obtain ⟨after, read, serves⟩ := read_block serves (by simp : bytes.length ≤ (bytes ++ rest).length)
  exact ⟨after, by simpa using read, by simpa using serves⟩

theorem reads_word (w : Width) (v : Word w) : Reads limits (word w) (bigEndian w.bytes v.toNat) v := by
  have bytes := (@reads_exactly limits (bigEndian w.bytes v.toNat)).map fun bytes =>
    BitVec.ofNat w.bits (ofBigEndian bytes)
  rwa [length_bigEndian, ofNat_ofBigEndian] at bytes

theorem reads_byte (b : Byte) : Reads limits byte [b] b := bigEndian_byte b ▸ @reads_word limits .one b

theorem reads_flag (value : Bool) : Reads limits flag [Emission.flagByte value] value := by
  refine Reads.of_offset fun start => ?_
  refine (reads_byte (Emission.flagByte value)).check ?_
  cases value <;> exact reads_pure _

/-- The bytes of a prefix are read up to the first one without the high bit. -/
theorem reads_varintFrom {start more : Nat} {seen front : List Byte} {last : Byte} {value length : Nat}
    (high : ∀ byte ∈ front, 128 ≤ byte.toNat) (low : last.toNat < 128) (enough : front.length < more)
    (decoded : Varint.decode (seen ++ (front ++ [last])) = .ok (value, length)) :
    Reads limits (varintFrom start more seen) (front ++ [last]) value := by
  obtain ⟨more, rfl⟩ : ∃ fewer, more = fewer + 1 := ⟨more - 1, by omega⟩
  induction front generalizing more seen with
  | nil =>
    rw [List.nil_append] at decoded
    refine (reads_byte last).check ?_
    rw [if_pos low, decoded]
    exact reads_pure value
  | cons byte front ih =>
    have further : ¬byte.toNat < 128 := Nat.not_lt.mpr (high byte (by simp))
    rw [List.length_cons] at enough
    refine (reads_byte byte).bind ?_
    rw [if_neg further]
    obtain ⟨more, rfl⟩ : ∃ fewer, more = fewer + 1 := ⟨more - 1, by omega⟩
    refine ih (fun b member => high b (List.mem_cons_of_mem _ member)) ?_ more (by omega)
    rwa [List.append_assoc, List.singleton_append]

theorem reads_varint {bytes : List Byte} {n : Nat} (denotes : Varint.Denotes bytes n) :
    Reads limits varint bytes n := by
  refine Reads.of_offset fun start => ?_
  obtain ⟨front, last, rfl, high, low, few⟩ := denotes.shape
  exact reads_varintFrom high low few denotes

/-- A length within the limit is read in every spelling. -/
theorem reads_length {bytes : List Byte} {n : Nat} (within : n ≤ limits.maxLength.toNat)
    (denotes : Varint.Denotes bytes n) : Reads limits length bytes n := by
  refine Reads.of_offset fun start => ?_
  refine (reads_varint denotes).check ?_
  intro source place rest serves
  refine ⟨source, ?_, serves⟩
  rw [← serves.bounds] at within
  exact (read_bounded start n source).trans (if_pos within)

end TypedWire.Decoder
