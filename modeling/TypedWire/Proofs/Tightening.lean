import TypedWire.Proofs.DecoderParts

/-! The limit is asked for in one place only, where a length has just been read, and nothing else that
decoders are put together from can tell two limits apart. -/

namespace TypedWire

/-- The error without the limit that it may report. -/
def DecodeError.sansLimit : DecodeError → DecodeError
  | .lengthLimit offset length _ => .lengthLimit offset length 0
  | .component label cause => .component label cause.sansLimit
  | error => error

/-- Some length above `limit` was refused. -/
def DecodeError.Exceeds (limit : Nat) (error : DecodeError) : Prop :=
  ∃ place length, error.root = .lengthLimit place length limit ∧ limit < length

/-- The source with other limits. -/
def Source.under (source : Source) (limits : DecodeLimits) : Source := { source with limits }

/-- What comes of one decoder under a tight limit and under a loose one: the same result, up to the limit that an
error reports, from the same bytes; or the tight limit refused a length. -/
inductive Tightens {α : Type} (strict loose : DecodeLimits) :
    (tight wide : Except DecodeError α × Source) → Prop
  | reads (value : α) (after : Source) :
      Tightens strict loose (.ok value, after.under strict) (.ok value, after.under loose)
  | fails {tight wide : DecodeError} (after : Source) (same : tight.sansLimit = wide.sansLimit) :
      Tightens strict loose (.error tight, after.under strict) (.error wide, after.under loose)
  | refuses {error : DecodeError} {after : Source} {wide : Except DecodeError α × Source}
      (exceeds : error.Exceeds strict.maxLength.toNat) : Tightens strict loose (.error error, after) wide

namespace Decoder

variable {α : Type} {strict loose : DecodeLimits}

private theorem tightens_of_blind {decoder : Decoder α} {source : Source}
    (blind : ∀ limits, decoder.read (source.under limits) =
      ((decoder.read source).1, (decoder.read source).2.under limits)) :
    Tightens strict loose (decoder.read (source.under strict)) (decoder.read (source.under loose)) := by
  rw [blind strict, blind loose]
  obtain ⟨result, after⟩ := decoder.read source
  cases result with
  | ok value => exact .reads value after
  | error error => exact .fails after rfl

private theorem read_exactly_under (count : Nat) (source : Source) (limits : DecodeLimits) :
    (exactly count).read (source.under limits) =
      (((exactly count).read source).1, ((exactly count).read source).2.under limits) := by
  simp only [read, exactly, Source.under]
  obtain ⟨⟨bytes, refusal⟩, reader⟩ := source.reader.pull count
  rcases refusal with _ | _ | failure <;> rfl

private theorem read_block_under (count : Nat) (source : Source) (limits : DecodeLimits) :
    (block count).read (source.under limits) =
      (((block count).read source).1, ((block count).read source).2.under limits) := by
  simp only [read, block, Source.under]
  obtain ⟨⟨bytes, refusal⟩, reader⟩ := source.reader.pull count
  rcases refusal with _ | _ | failure <;> rfl

private theorem tightens_bounded (tighter : strict.maxLength ≤ loose.maxLength) (start value : Nat)
    (source : Source) : Tightens strict loose ((bounded start value).read (source.under strict))
      ((bounded start value).read (source.under loose)) := by
  have wider : strict.maxLength.toNat ≤ loose.maxLength.toNat := UInt64.le_iff_toNat_le.mp tighter
  rw [read_bounded, read_bounded]
  by_cases within : value ≤ (source.under strict).limits.maxLength.toNat
  · have within' : value ≤ (source.under loose).limits.maxLength.toNat := Nat.le_trans within wider
    rw [if_pos within, if_pos within']
    exact .reads value source
  · rw [if_neg within]
    exact .refuses ⟨start, value, rfl, Nat.lt_of_not_le within⟩

/-- Whatever is put together from reads, checks of lengths, sequencing and labels does the same under both
limits, unless the tight one refuses a length. -/
theorem Built.tightens {decoder : Decoder α} (built : Built decoder)
    (tighter : strict.maxLength ≤ loose.maxLength) (source : Source) :
    Tightens strict loose (decoder.read (source.under strict)) (decoder.read (source.under loose)) := by
  induction built generalizing source with
  | pure value => exact .reads value source
  | throw error => exact .fails source rfl
  | offset => exact .reads source.offset source
  | bounded start value => exact tightens_bounded tighter start value source
  | exactly count => exact tightens_of_blind (read_exactly_under count source)
  | block count => exact tightens_of_blind (read_block_under count source)
  | @bind _ _ first second _ _ one two =>
    have alike := one source
    rw [read_bind, read_bind]
    generalize first.read (source.under strict) = tight at alike
    generalize first.read (source.under loose) = wide at alike
    cases alike with
    | reads value after => exact two value after
    | fails after same => exact .fails after same
    | refuses exceeds => exact .refuses exceeds
  | @labeled _ decoder label _ ih =>
    have alike := ih source
    rw [read_labeled, read_labeled]
    generalize decoder.read (source.under strict) = tight at alike
    generalize decoder.read (source.under loose) = wide at alike
    cases alike with
    | reads value after => exact .reads value after
    | fails after same => exact .fails after (congrArg (DecodeError.component label) same)
    | refuses exceeds => exact .refuses exceeds

end Decoder
end TypedWire
