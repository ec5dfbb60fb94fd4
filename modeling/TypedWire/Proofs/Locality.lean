import TypedWire.Proofs.FirstRefusal
import TypedWire.Proofs.ReadPlan

/-! What a codec makes of its input is settled by the bytes that it takes: whatever follows them, the
outcome is the same, and of any fewer bytes the codec says that the input ended too early. -/

namespace TypedWire

variable {α : Type}

/-- The input ended too early, and the error tells a place no further than `bound`. -/
def Starved (bound : Nat) (result : Except DecodeError α) : Prop :=
  ∃ error place, result = .error error ∧ error.root = .unexpectedEof place ∧ place ≤ bound

/-! ### Outcomes -/

/-- What comes of a plan over a string of bytes. -/
structure Outcome (α : Type) where
  result : Except DecodeError α
  place : Nat
  left : List Byte

/-- The error of a read for which there are only `bytes`. -/
def Fetch.shortage (place : Nat) (bytes : List Byte) : Fetch → DecodeError
  | .exactly => .unexpectedEof place
  | .block => .unexpectedEof (place + bytes.length)

namespace Plan

/-- What comes of the plan over a source at `place` that delivers `bytes`. -/
def outcome (limits : DecodeLimits) : Plan α → Nat → List Byte → Outcome α
  | .done result, place, bytes => ⟨result, place, bytes⟩
  | .offset next, place, bytes => (next place).outcome limits place bytes
  | .limits next, place, bytes => (next limits).outcome limits place bytes
  | .fetch kind path count next, place, bytes =>
    if count ≤ bytes.length then (next (bytes.take count)).outcome limits (place + count) (bytes.drop count)
    else ⟨.error (path.foldr .labeled (kind.shortage place bytes)), place, []⟩

end Plan

namespace Decoder

theorem read_under_ok {path : List String} {decoder : Decoder α} {source after : Source} {value : α}
    (read : decoder.read source = (.ok value, after)) :
    (path.foldr labeled decoder).read source = (.ok value, after) := by
  induction path with
  | nil => exact read
  | cons label path ih => rw [List.foldr_cons, read_labeled, ih]

theorem read_under_error {path : List String} {decoder : Decoder α} {source after : Source} {error : DecodeError}
    (read : decoder.read source = (.error error, after)) :
    (path.foldr labeled decoder).read source = (.error (path.foldr .labeled error), after) := by
  induction path with
  | nil => exact read
  | cons label path ih => rw [List.foldr_cons, read_labeled, ih, List.foldr_cons]

end Decoder

theorem root_under (path : List String) (error : DecodeError) :
    (path.foldr DecodeError.labeled error).root = error.root := by
  induction path with
  | nil => rfl
  | cons label path ih => exact ih

theorem Fetch.read_enough (kind : Fetch) {source : Source} {limits : DecodeLimits} {place count : Nat}
    {bytes : List Byte} (serves : source.Serves limits place bytes) (enough : count ≤ bytes.length) :
    ∃ after, (kind.decoder count).read source = (.ok (bytes.take count), after) ∧
      after.Serves limits (place + count) (bytes.drop count) := by
  cases kind with
  | exactly => exact Decoder.read_exactly serves enough
  | block => exact Decoder.read_block serves enough

theorem Fetch.read_short (kind : Fetch) {source : Source} {limits : DecodeLimits} {place count : Nat}
    {bytes : List Byte} (serves : source.Serves limits place bytes) (short : bytes.length < count) :
    ∃ after, (kind.decoder count).read source = (.error (kind.shortage place bytes), after) ∧
      after.Serves limits place [] := by
  cases kind with
  | exactly => exact Decoder.read_exactly_short serves short
  | block => exact Decoder.read_block_short serves short

/-- Over a steady source, a plan comes to its outcome. -/
theorem Plan.read_run (plan : Plan α) {source : Source} {limits : DecodeLimits} {place : Nat} {bytes : List Byte}
    (serves : source.Serves limits place bytes) :
    ∃ after, plan.run.read source = ((plan.outcome limits place bytes).result, after) ∧
      after.Serves limits (plan.outcome limits place bytes).place (plan.outcome limits place bytes).left := by
  induction plan generalizing source place bytes with
  | done result =>
    refine ⟨source, ?_, serves⟩
    cases result <;> rfl
  | offset next ih =>
    obtain ⟨after, read, serves'⟩ := ih place serves
    refine ⟨after, ?_, serves'⟩
    rw [run, Decoder.read_bind, Decoder.read_offset, serves.place]
    exact read
  | limits next ih =>
    obtain ⟨after, read, serves'⟩ := ih limits serves
    refine ⟨after, ?_, serves'⟩
    rw [run, Decoder.read_bind, Decoder.read_limits, serves.bounds]
    exact read
  | fetch kind path count next ih =>
    rw [outcome, run, Decoder.read_bind]
    by_cases enough : count ≤ bytes.length
    · obtain ⟨between, got, serves⟩ := kind.read_enough serves enough
      rw [if_pos enough, Decoder.read_under_ok got]
      exact ih (bytes.take count) serves
    · obtain ⟨after, refused, serves⟩ := kind.read_short serves (Nat.lt_of_not_le enough)
      rw [if_neg enough, Decoder.read_under_error refused]
      exact ⟨after, rfl, serves⟩

/-! ### Locality -/

/-- Over `taken` and whatever follows it, the plan takes just `taken` and comes to `result`; over anything that
`taken` goes on from, the input ends too early. -/
structure Plan.Settles (plan : Plan α) (limits : DecodeLimits) (place : Nat) (taken : List Byte)
    (result : Except DecodeError α) : Prop where
  decided : ∀ rest, plan.outcome limits place (taken ++ rest) = ⟨result, place + taken.length, rest⟩
  starved : ∀ front, front <+: taken → front ≠ taken →
    Starved (place + front.length) (plan.outcome limits place front).result

private theorem Plan.outcome_fetch_append {kind : Fetch} {path : List String} {next : List Byte → Plan α}
    {limits : DecodeLimits} {place : Nat} (front more : List Byte) :
    (Plan.fetch kind path front.length next).outcome limits place (front ++ more) =
      (next front).outcome limits (place + front.length) more := by
  rw [Plan.outcome, if_pos (by simp), List.take_left, List.drop_left]

private theorem Plan.starved_fetch {kind : Fetch} {path : List String} {count : Nat} {next : List Byte → Plan α}
    {limits : DecodeLimits} {place : Nat} {bytes : List Byte} (few : bytes.length < count) :
    Starved (place + bytes.length) ((Plan.fetch kind path count next).outcome limits place bytes).result := by
  rw [Plan.outcome, if_neg (Nat.not_le.mpr few)]
  cases kind with
  | exactly => exact ⟨_, place, rfl, root_under path _, Nat.le_add_right _ _⟩
  | block => exact ⟨_, place + bytes.length, rfl, root_under path _, Nat.le_refl _⟩

private theorem Plan.settles_fetch {kind : Fetch} {path : List String} {next : List Byte → Plan α}
    {limits : DecodeLimits} {place : Nat} {front taken : List Byte} {result : Except DecodeError α}
    (settles : (next front).Settles limits (place + front.length) taken result) :
    (Plan.fetch kind path front.length next).Settles limits place (front ++ taken) result := by
  obtain ⟨decided, starved⟩ := settles
  refine ⟨fun rest => ?_, fun less before different => ?_⟩
  · rw [List.append_assoc, outcome_fetch_append, decided, List.length_append, Nat.add_assoc]
  · by_cases few : less.length < front.length
    · exact starved_fetch few
    · obtain ⟨less', rfl⟩ : front <+: less :=
        List.prefix_of_prefix_length_le (List.prefix_append front taken) before (Nat.le_of_not_lt few)
      rw [outcome_fetch_append, List.length_append, ← Nat.add_assoc]
      refine starved less' ((List.prefix_append_right_inj front).mp before) ?_
      rintro rfl
      exact different rfl

/-! ### Streams that refuse -/

/-- The source is at `place`, and its stream delivers `bytes` and then refuses with `refusal`. -/
structure Source.Breaks (source : Source) (limits : DecodeLimits) (place : Nat) (bytes : List Byte)
    (refusal : ReadRefusal) : Prop where
  breaks : source.reader.Breaks bytes refusal
  place : source.offset = place
  bounds : source.limits = limits

/-- The error of a read at `place` for which the stream delivers only `bytes` before it refuses. -/
def Fetch.refused (place : Nat) (bytes : List Byte) : Fetch → ReadRefusal → DecodeError
  | kind, .endOfInput => kind.shortage place bytes
  | .exactly, .failed failure => if failure.kind = .unexpectedEof then .unexpectedEof place else .io place failure
  | .block, .failed failure => .io place failure

theorem Fetch.root_refused (kind : Fetch) (place : Nat) (bytes : List Byte) (refusal : ReadRefusal) :
    (kind.refused place bytes refusal).root = kind.refused place bytes refusal := by
  cases kind with
  | exactly =>
    cases refusal with
    | endOfInput => rfl
    | failed failure => by_cases ends : failure.kind = .unexpectedEof <;> simp [refused, ends, DecodeError.root]
  | block => cases refusal <;> rfl

section

variable {source : Source} {limits : DecodeLimits} {place count : Nat} {bytes : List Byte} {refusal : ReadRefusal}

/-- A read before the refusal. -/
theorem Fetch.read_before (kind : Fetch) (breaks : source.Breaks limits place bytes refusal)
    (enough : count ≤ bytes.length) :
    ∃ after, (kind.decoder count).read source = (.ok (bytes.take count), after) ∧
      after.Breaks limits (place + count) (bytes.drop count) refusal := by
  obtain ⟨reader, pulled, breaks'⟩ := breaks.breaks.pull_enough enough
  have moved : source.offset + (bytes.take count).length = place + count := by
    rw [breaks.place, List.length_take, Nat.min_eq_left enough]
  refine ⟨⟨reader, place + count, source.limits⟩, ?_, breaks', rfl, breaks.bounds⟩
  cases kind with
  | exactly => simp only [decoder, Decoder.read, Decoder.exactly, pulled, moved]
  | block => simp only [decoder, Decoder.read, Decoder.block, pulled, moved]

/-- A read into which the refusal falls. -/
theorem Fetch.read_across (kind : Fetch) (breaks : source.Breaks limits place bytes refusal)
    (short : bytes.length < count) :
    ∃ after, (kind.decoder count).read source = (.error (kind.refused place bytes refusal), after) := by
  have pulled : source.reader.pull count = ((bytes, some refusal), (source.reader.pull count).2) :=
    Prod.ext (breaks.breaks.pull_short short) rfl
  refine ⟨{ source with reader := (source.reader.pull count).2 }, ?_⟩
  cases kind with
  | exactly =>
    simp only [decoder, Decoder.read, Decoder.exactly]
    rw [pulled, ← breaks.place]
    cases refusal <;> rfl
  | block =>
    simp only [decoder, Decoder.read, Decoder.block]
    rw [pulled, ← breaks.place]
    cases refusal <;> rfl

/-- A read that asks for more than the stream delivers before it refuses. -/
structure Cut where
  kind : Fetch
  path : List String
  place : Nat
  got : List Byte

/-- What becomes of such a read. -/
def Cut.error (cut : Cut) (refusal : ReadRefusal) : DecodeError :=
  cut.path.foldr .labeled (cut.kind.refused cut.place cut.got refusal)

theorem Cut.root_error (cut : Cut) (refusal : ReadRefusal) :
    (cut.error refusal).root = cut.kind.refused cut.place cut.got refusal :=
  (root_under cut.path _).trans (cut.kind.root_refused cut.place cut.got refusal)

/-- The read of the plan that is cut where a stream has delivered `bytes`, if there is one. -/
def Plan.cut (limits : DecodeLimits) : Plan α → Nat → List Byte → Option Cut
  | .done _, _, _ => none
  | .offset next, place, bytes => (next place).cut limits place bytes
  | .limits next, place, bytes => (next limits).cut limits place bytes
  | .fetch kind path count next, place, bytes =>
    if count ≤ bytes.length then (next (bytes.take count)).cut limits (place + count) (bytes.drop count)
    else some ⟨kind, path, place, bytes⟩

private theorem Plan.cut_fetch_append {kind : Fetch} {path : List String} {next : List Byte → Plan α}
    (front more : List Byte) : (Plan.fetch kind path front.length next).cut limits place (front ++ more) =
      (next front).cut limits (place + front.length) more := by
  rw [Plan.cut, if_pos (by simp), List.take_left, List.drop_left]

/-- Either no read of a plan is cut; then the plan is settled by bytes before the refusal, which is not met. Or there
are too few before it, and it is told by the read that is cut. -/
theorem Plan.settles_or_cut (plan : Plan α) (breaks : source.Breaks limits place bytes refusal) :
    (plan.cut limits place bytes = none ∧
      ∃ taken rest result after, bytes = taken ++ rest ∧ plan.Settles limits place taken result ∧
        plan.run.read source = (result, after) ∧ after.Breaks limits (place + taken.length) rest refusal) ∨
      ∃ cut, plan.cut limits place bytes = some cut ∧ cut.place + cut.got.length = place + bytes.length ∧
        Starved (place + bytes.length) (plan.outcome limits place bytes).result ∧
          ∃ after, plan.run.read source = (.error (cut.error refusal), after) := by
  induction plan generalizing source place bytes with
  | done result =>
    refine .inl ⟨rfl, [], bytes, result, source, rfl, ⟨fun rest => rfl, fun front before different => ?_⟩, ?_, breaks⟩
    · exact absurd (List.prefix_nil.mp before) different
    · cases result <;> rfl
  | offset next ih =>
    rw [run, Decoder.read_bind, Decoder.read_offset, breaks.place]
    rcases ih place breaks with ⟨uncut, taken, rest, result, after, split, ⟨decided, starved⟩, finished⟩ | failed
    · exact .inl ⟨uncut, taken, rest, result, after, split, ⟨decided, starved⟩, finished⟩
    · exact .inr failed
  | limits next ih =>
    rw [run, Decoder.read_bind, Decoder.read_limits, breaks.bounds]
    rcases ih limits breaks with ⟨uncut, taken, rest, result, after, split, ⟨decided, starved⟩, finished⟩ | failed
    · exact .inl ⟨uncut, taken, rest, result, after, split, ⟨decided, starved⟩, finished⟩
    · exact .inr failed
  | fetch kind path count next ih =>
    rw [run, Decoder.read_bind]
    by_cases enough : count ≤ bytes.length
    · obtain ⟨front, back, rfl, rfl⟩ : ∃ front back, bytes = front ++ back ∧ count = front.length :=
        ⟨bytes.take count, bytes.drop count, (List.take_append_drop count bytes).symm, by simp [enough]⟩
      obtain ⟨between, got, breaks⟩ := kind.read_before breaks enough
      rw [List.take_left] at got
      rw [List.drop_left] at breaks
      rw [Decoder.read_under_ok got, outcome_fetch_append, cut_fetch_append, List.length_append, ← Nat.add_assoc]
      rcases ih front breaks with ⟨uncut, taken, rest, result, after, rfl, settles, read, breaks'⟩ | failed
      · left
        rw [Nat.add_assoc, ← List.length_append] at breaks'
        exact ⟨uncut, front ++ taken, rest, result, after, (List.append_assoc ..).symm, settles_fetch settles, read,
          breaks'⟩
      · exact .inr failed
    · have few := Nat.lt_of_not_le enough
      obtain ⟨after, refused⟩ := kind.read_across breaks few
      rw [Decoder.read_under_error refused, Plan.cut, if_neg enough]
      exact .inr ⟨⟨kind, path, place, bytes⟩, rfl, rfl, starved_fetch few, after, rfl⟩

theorem Plan.settles_or_refused (plan : Plan α) (breaks : source.Breaks limits place bytes refusal) :
    (∃ taken rest result after, bytes = taken ++ rest ∧ plan.Settles limits place taken result ∧
        plan.run.read source = (result, after) ∧ after.Breaks limits (place + taken.length) rest refusal) ∨
      Starved (place + bytes.length) (plan.outcome limits place bytes).result ∧
        ∃ error after, plan.run.read source = (.error error, after) ∧
          ∃ (kind : Fetch) (start : Nat) (got : List Byte), error.root = kind.refused start got refusal ∧
            start + got.length = place + bytes.length := by
  rcases plan.settles_or_cut breaks with ⟨-, settled⟩ | ⟨cut, -, near, starved, after, read⟩
  · exact .inl settled
  · exact .inr ⟨starved, _, after, read, cut.kind, cut.place, cut.got, cut.root_error refusal, near⟩

end

/-- Over a string of bytes, either a plan is settled by its beginning, or the input ends too early and nothing of it
is left. -/
theorem Plan.settles_or_spent (plan : Plan α) (limits : DecodeLimits) (place : Nat) (bytes : List Byte) :
    (∃ taken rest result, bytes = taken ++ rest ∧ plan.Settles limits place taken result) ∨
      Starved (place + bytes.length) (plan.outcome limits place bytes).result ∧
        (plan.outcome limits place bytes).left = [] ∧ place ≤ (plan.outcome limits place bytes).place ∧
          (plan.outcome limits place bytes).place ≤ place + bytes.length := by
  induction plan generalizing place bytes with
  | done result =>
    refine .inl ⟨[], bytes, result, rfl, fun rest => rfl, fun front before different => ?_⟩
    exact absurd (List.prefix_nil.mp before) different
  | offset next ih =>
    rcases ih place place bytes with ⟨taken, rest, result, split, ⟨decided, starved⟩⟩ | spent
    · exact .inl ⟨taken, rest, result, split, decided, starved⟩
    · exact .inr spent
  | limits next ih =>
    rcases ih limits place bytes with ⟨taken, rest, result, split, ⟨decided, starved⟩⟩ | spent
    · exact .inl ⟨taken, rest, result, split, decided, starved⟩
    · exact .inr spent
  | fetch kind path count next ih =>
    by_cases enough : count ≤ bytes.length
    · obtain ⟨front, back, rfl, rfl⟩ : ∃ front back, bytes = front ++ back ∧ count = front.length :=
        ⟨bytes.take count, bytes.drop count, (List.take_append_drop count bytes).symm, by simp [enough]⟩
      rw [outcome_fetch_append, List.length_append, ← Nat.add_assoc]
      rcases ih front (place + front.length) back with ⟨taken, rest, result, rfl, settles⟩ |
        ⟨starved, left, least, most⟩
      · exact .inl ⟨front ++ taken, rest, result, (List.append_assoc ..).symm, settles_fetch settles⟩
      · exact .inr ⟨starved, left, Nat.le_trans (Nat.le_add_right _ _) least, most⟩
    · refine .inr ⟨starved_fetch (Nat.lt_of_not_le enough), ?_⟩
      rw [outcome, if_neg enough]
      exact ⟨rfl, Nat.le_refl _, Nat.le_add_right _ _⟩

theorem Plan.settles_or_starved (plan : Plan α) (limits : DecodeLimits) (place : Nat) (bytes : List Byte) :
    (∃ taken rest result, bytes = taken ++ rest ∧ plan.Settles limits place taken result) ∨
      Starved (place + bytes.length) (plan.outcome limits place bytes).result := by
  rcases plan.settles_or_spent limits place bytes with settled | ⟨starved, -⟩
  · exact .inl settled
  · exact .inr starved

namespace Codec

variable {t : Ty}

/-- What `taken` settles: the outcome, whatever follows, and that there is none before its end. -/
structure Commits (codec : Codec t) (limits : DecodeLimits) (place : Nat) (taken : List Byte)
    (result : Except DecodeError t.Value) : Prop where
  decided : ∀ {source : Source} {rest : List Byte}, source.Serves limits place (taken ++ rest) →
    ∃ after, codec.read source = (result, after) ∧ after.Serves limits (place + taken.length) rest
  starved : ∀ {source : Source} {front : List Byte}, front <+: taken → front ≠ taken →
    source.Serves limits place front → Starved (place + front.length) (codec.read source).1

theorem commits_of_read (codec : Codec t) {source after : Source} {limits : DecodeLimits} {place : Nat}
    {bytes : List Byte} {result : Except DecodeError t.Value} (serves : source.Serves limits place bytes)
    (read : codec.read source = (result, after))
    (complete : ∀ error offset, result = .error error → error.root ≠ .unexpectedEof offset) :
    ∃ taken, bytes = taken ++ after.reader.held ∧ codec.Commits limits place taken result := by
  obtain ⟨plan, planned⟩ := codec.planned_decode
  have follows : ∀ {source : Source} {bytes : List Byte}, source.Serves limits place bytes →
      ∃ after, codec.read source = ((plan.outcome limits place bytes).result, after) ∧
        after.Serves limits (plan.outcome limits place bytes).place (plan.outcome limits place bytes).left := by
    intro source bytes serves
    rw [Codec.read, ← planned]
    exact plan.read_run serves
  obtain ⟨after', read', serves'⟩ := follows serves
  obtain ⟨rfl, rfl⟩ : result = _ ∧ after = after' := Prod.mk.inj (read.symm.trans read')
  rcases plan.settles_or_starved limits place bytes with ⟨taken, rest, result, rfl, settles⟩ | starved
  · rw [settles.decided] at serves' ⊢
    refine ⟨taken, by rw [serves'.holds], ?_, ?_⟩
    · intro source rest serves
      obtain ⟨after, read, serves⟩ := follows serves
      rw [settles.decided] at read serves
      exact ⟨after, read, serves⟩
    · intro source front before different serves
      obtain ⟨after, read, -⟩ := follows serves
      rw [read]
      exact settles.starved front before different
  · obtain ⟨error, offset, failed, root, -⟩ := starved
    exact absurd root (complete error offset failed)

/-- Decoding takes the same bytes for the same outcome whatever follows them, and of any fewer of them it says that
the input ended too early, within them. So of two encodings that are accepted for one codec, neither goes on where
the other ends. -/
theorem decode_local (codec : Codec t) :
    (∀ {source after : Source} {limits : DecodeLimits} {place : Nat} {bytes : List Byte}
      {result : Except DecodeError t.Value}, source.Serves limits place bytes →
      codec.read source = (result, after) →
      (∀ error offset, result = .error error → error.root ≠ .unexpectedEof offset) →
      ∃ taken, bytes = taken ++ after.reader.held ∧
        (∀ {more : List Byte} {longer : Source}, longer.Serves limits place (bytes ++ more) →
          ∃ final, codec.read longer = (result, final) ∧ final.offset = after.offset ∧
            final.reader.held = after.reader.held ++ more) ∧
        ∀ {front : List Byte} {shorter : Source}, front <+: taken → front ≠ taken →
          shorter.Serves limits place front → Starved (place + front.length) (codec.read shorter).1) ∧
      ∀ {a b : List Byte} {v w : t.Value}, codec.ofBytes a = .ok v → codec.ofBytes b = .ok w → a <+: b → a = b := by
  constructor
  · intro source after limits place bytes result serves read complete
    obtain ⟨taken, split, commits⟩ := codec.commits_of_read serves read complete
    refine ⟨taken, split, ?_, ?_⟩
    · intro more longer serves'
      rw [split, List.append_assoc] at serves'
      obtain ⟨final, read', serves'⟩ := commits.decided serves'
      rw [split] at serves
      obtain ⟨after', read'', serves⟩ := commits.decided serves
      obtain ⟨-, rfl⟩ : result = result ∧ after = after' := Prod.mk.inj (read.symm.trans read'')
      exact ⟨final, read', serves'.place.trans serves.place.symm, serves'.holds⟩
    · intro front shorter before different serves'
      exact commits.starved before different serves'
  · rintro a b v w acceptsA acceptsB ⟨more, rfl⟩
    obtain ⟨after, read, nothing⟩ := ofBytes_eq_ok_iff.mp acceptsA
    obtain ⟨after', read', nothing'⟩ := ofBytes_eq_ok_iff.mp acceptsB
    obtain ⟨taken, split, commits⟩ := codec.commits_of_read (Source.serves_ofBytes a .standard) read (by simp)
    obtain rfl : a = taken := by rwa [nothing, List.append_nil] at split
    obtain ⟨final, read'', serves⟩ := commits.decided (Source.serves_ofBytes (a ++ more) .standard)
    obtain ⟨-, rfl⟩ := Prod.mk.inj (read'.symm.trans read'')
    rw [← serves.holds, nothing', List.append_nil]

/-- A list of a flag and a text, with one more byte behind it, and cut off inside the text. -/
theorem decode_local_nested :
    (∀ {more : List Byte} {longer : Source}, longer.Serves .standard 0 ([1, 1, 2, 0x61, 0x62, 7] ++ more) →
        ∃ final, (Codec.seq .vector (.pair .bool .text)).read longer = (.ok [(true, "ab")], final) ∧ final.offset = 5 ∧
          final.reader.held = [7] ++ more) ∧
      Starved 4 ((Codec.seq .vector (.pair .bool .text)).read (.ofBytes [1, 1, 2, 0x61] .standard)).1 ∧
        ∀ {longer : List Byte} {v : Ty.Value (.seq .vector (.pair .bool .text))},
          (Codec.seq .vector (.pair .bool .text)).ofBytes longer = .ok v → [1, 1, 2, 0x61, 0x62] <+: longer →
            [1, 1, 2, 0x61, 0x62] = longer := by
  obtain ⟨takes, free⟩ := decode_local (Codec.seq .vector (.pair .bool .text))
  obtain ⟨after, read, offset, held⟩ : ∃ after,
      (Codec.seq .vector (.pair .bool .text)).read (.ofBytes [1, 1, 2, 0x61, 0x62, 7] .standard) =
        (.ok [(true, "ab")], after) ∧ after.offset = 5 ∧ after.reader.held = [7] := ⟨_, rfl, rfl, rfl⟩
  obtain ⟨taken, split, longer, shorter⟩ := takes (Source.serves_ofBytes _ .standard) read (by simp)
  rw [held] at split longer
  rw [offset] at longer
  obtain rfl : [1, 1, 2, 0x61, 0x62] = taken := List.append_cancel_right split
  refine ⟨longer, ?_, ?_⟩
  · exact shorter (show [1, 1, 2, 0x61] <+: [1, 1, 2, 0x61, 0x62] from ⟨[0x62], rfl⟩) (by decide)
      (Source.serves_ofBytes _ .standard)
  · intro longer v accepts before
    have whole : (Codec.seq .vector (.pair .bool .text)).ofBytes [1, 1, 2, 0x61, 0x62] = .ok [(true, "ab")] := rfl
    exact free whole accepts before

end Codec
end TypedWire
