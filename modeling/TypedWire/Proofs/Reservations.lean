import TypedWire.Codec.Run
import TypedWire.Proofs.DecoderParts

/-! A run comes to what its decoder comes to, unless it does not return; and it returns if, for every count
that the limits accept, each container and payload may have what it asks for. -/

namespace TypedWire

/-! ### Limits stay -/

namespace Decoder

variable {α : Type}

/-- A source keeps its limits, whatever is read from it. -/
theorem Built.limits_read {decoder : Decoder α} (built : Built decoder) (source : Source) :
    (decoder.read source).2.limits = source.limits := by
  induction built generalizing source with
  | pure value => rfl
  | throw error => rfl
  | offset => rfl
  | bounded start value =>
    rw [read_bounded]
    split <;> rfl
  | exactly count =>
    simp only [read, Decoder.exactly]
    obtain ⟨⟨bytes, refusal⟩, reader⟩ := source.reader.pull count
    rcases refusal with _ | _ | failure <;> rfl
  | block count =>
    simp only [read, Decoder.block]
    obtain ⟨⟨bytes, refusal⟩, reader⟩ := source.reader.pull count
    rcases refusal with _ | _ | failure <;> rfl
  | @bind _ _ first second _ _ one two =>
    have kept := one source
    rw [read_bind]
    generalize first.read source = outcome at kept
    obtain ⟨result, between⟩ := outcome
    cases result with
    | ok value => exact (two value between).trans kept
    | error error => exact kept
  | @labeled _ decoder label _ ih =>
    have kept := ih source
    rw [read_labeled]
    generalize decoder.read source = outcome at kept
    obtain ⟨result, after⟩ := outcome
    cases result <;> exact kept

/-- A length that is read is within the limit. -/
theorem length_le {source after : Source} {count : Nat} (read : length.read source = (.ok count, after)) :
    count ≤ source.limits.maxLength.toNat := by
  obtain ⟨start, between, place, read⟩ := exists_of_read_bind read
  cases place
  obtain ⟨value, last, counted, read⟩ := exists_of_read_bind read
  have kept := built_varint.limits_read source
  change (bounded source.offset value).read last = _ at read
  rw [counted] at kept
  rw [read_bounded] at read
  by_cases within : value ≤ last.limits.maxLength.toNat
  · rw [if_pos within] at read
    cases read
    rwa [← kept]
  · rw [if_neg within] at read
    cases read

end Decoder

/-- Whatever count the limits accept, no more is asked for than there can be. -/
def DecodeLimits.Grants (limits : DecodeLimits) (ask : Nat → Nat) : Prop :=
  ∀ count ≤ limits.maxLength.toNat, ask (limits.prealloc (.ofNat count)).toNat ≤ Layout.limit

theorem DecodeLimits.toNat_prealloc (limits : DecodeLimits) {count : Nat} (within : count ≤ limits.maxLength.toNat) :
    (limits.prealloc (.ofNat count)).toNat = min count limits.maxPrealloc.toNat := by
  have whole : (UInt64.ofNat count).toNat = count :=
    UInt64.toNat_ofNat_of_lt' (Nat.lt_of_le_of_lt within limits.maxLength.toNat_lt)
  change (if .ofNat count ≤ limits.maxPrealloc then .ofNat count else limits.maxPrealloc : UInt64).toNat = _
  by_cases smaller : UInt64.ofNat count ≤ limits.maxPrealloc
  · rw [if_pos smaller, whole, Nat.min_eq_left]
    rwa [UInt64.le_iff_toNat_le, whole] at smaller
  · rw [if_neg smaller, Nat.min_eq_right]
    rw [UInt64.le_iff_toNat_le, whole] at smaller
    exact Nat.le_of_not_le smaller

/-- If more room is asked for more elements, the most that the limits pass on decides. -/
theorem DecodeLimits.grants_iff {limits : DecodeLimits} {ask : Nat → Nat} (more : ∀ {m n}, m ≤ n → ask m ≤ ask n) :
    limits.Grants ask ↔ ask (min limits.maxLength.toNat limits.maxPrealloc.toNat) ≤ Layout.limit := by
  constructor
  · intro grants
    rw [← limits.toNat_prealloc (Nat.le_refl _)]
    exact grants _ (Nat.le_refl _)
  · intro most count within
    rw [limits.toNat_prealloc within]
    have fewer : min count limits.maxPrealloc.toNat ≤ min limits.maxLength.toNat limits.maxPrealloc.toNat := by omega
    exact Nat.le_trans (more fewer) most

/-! ### Runs and decoders -/

namespace Run

variable {α β : Type}

theorem outcome_bind (first : Run α) (second : α → Run β) (source : Source) :
    (first >>= second).outcome source =
      match first.outcome source with
      | none => none
      | some (.ok value, after) => (second value).outcome after
      | some (.error error, after) => some (.error error, after) := by
  simp only [outcome, bind, ExceptT.bind, ExceptT.mk, StateT.bind, ExceptT.bindCont]
  rcases first source with _ | ⟨_ | value, after⟩ <;> rfl

/-- Under the limits the run comes to what the decoder comes to; or it does not return, and then there is no room. -/
def Follows (limits : DecodeLimits) (room : Prop) (run : Run α) (decoder : Decoder α) : Prop :=
  ∀ source : Source, source.limits = limits →
    run.outcome source = some (decoder.read source) ∧ (decoder.read source).2.limits = limits ∨
      run.outcome source = none ∧ ¬room

variable {limits : DecodeLimits} {room : Prop}

theorem follows_of {decoder : Decoder α} (built : decoder.Built) : Follows limits room (of decoder) decoder :=
  fun source under => .inl ⟨rfl, (built.limits_read source).trans under⟩

theorem follows_pure (value : α) : Follows limits room (pure value) (pure value) := fun _ under => .inl ⟨rfl, under⟩

namespace Follows

/-- Where there is room for the whole there is room for a part. -/
theorem part {whole : Prop} {run : Run α} {decoder : Decoder α} (follows : Follows limits room run decoder)
    (covers : whole → room) : Follows limits whole run decoder := fun source under =>
  (follows source under).imp_right (And.imp_right (mt covers))

/-- The second run may count on what the first one read. -/
theorem bind_of_read {first : Run α} {second : α → Run β} {decoder : Decoder α} {next : α → Decoder β}
    (one : Follows limits room first decoder)
    (two : ∀ value source after, source.limits = limits → decoder.read source = (.ok value, after) →
      Follows limits room (second value) (next value)) : Follows limits room (first >>= second) (decoder >>= next) := by
  intro source under
  rw [outcome_bind, Decoder.read_bind]
  rcases one source under with ⟨ran, kept⟩ | ⟨ended, unfit⟩
  · rw [ran]
    rcases outcome : decoder.read source with ⟨error | value, after⟩
    · rw [outcome] at kept
      exact .inl ⟨rfl, kept⟩
    · rw [outcome] at kept
      exact two value source after under outcome after kept
  · rw [ended]
    exact .inr ⟨rfl, unfit⟩

theorem bind {first : Run α} {second : α → Run β} {decoder : Decoder α} {next : α → Decoder β}
    (one : Follows limits room first decoder) (two : ∀ value, Follows limits room (second value) (next value)) :
    Follows limits room (first >>= second) (decoder >>= next) :=
  one.bind_of_read fun value _ _ _ _ => two value

/-- Room is asked for behind a count that the limits accept. -/
theorem counted {rest : Nat → Run α} {next : Nat → Decoder α}
    (each : ∀ count ≤ limits.maxLength.toNat, Follows limits room (rest count) (next count)) :
    Follows limits room (of Decoder.length >>= rest) (Decoder.length >>= next) := by
  refine (follows_of Decoder.built_length).bind_of_read fun count source after under read => each count ?_
  rw [← under]
  exact Decoder.length_le read

theorem reserve {ask : Nat → Nat} {count : Nat} (within : count ≤ limits.maxLength.toNat)
    (grants : room → limits.Grants ask) {rest : Run α} {decoder : Decoder α}
    (follows : Follows limits room rest decoder) :
    Follows limits room (reserve ask count >>= fun _ => rest) decoder := by
  intro source under
  rw [outcome_bind]
  by_cases granted : ask (source.limits.prealloc (.ofNat count)).toNat ≤ Layout.limit
  · rw [outcome, Run.reserve, if_pos granted]
    exact follows source under
  · rw [outcome, Run.reserve, if_neg granted]
    refine .inr ⟨rfl, fun there => granted ?_⟩
    rw [under]
    exact grants there count within

theorem labeled {run : Run α} {decoder : Decoder α} (follows : Follows limits room run decoder) (label : String) :
    Follows limits room (run.labeled label) (decoder.labeled label) := by
  intro source under
  simp only [outcome, Run.labeled, Decoder.read_labeled]
  rcases follows source under with ⟨ran, kept⟩ | ⟨ended, unfit⟩
  · rw [outcome] at ran
    rw [ran]
    generalize decoder.read source = read at kept
    rcases read with ⟨error | value, after⟩ <;> exact .inl ⟨rfl, kept⟩
  · rw [outcome] at ended
    rw [ended]
    exact .inr ⟨rfl, unfit⟩

theorem block {count : Nat} (within : count ≤ limits.maxLength.toNat) (grants : room → limits.Grants id) :
    Follows limits room (block count) (Decoder.block count) :=
  reserve within grants (follows_of (.block count))

theorem text (grants : room → limits.Grants id) : Follows limits room text Decoder.text := by
  refine counted fun count within => (follows_of .offset).bind fun start => (block within grants).bind fun bytes => ?_
  cases Utf8.decode bytes with
  | ok text => exact follows_pure text
  | error fault => exact follows_of (.throw (.invalidUtf8 start fault))

theorem collect {run : Run α} {decoder : Decoder α} (follows : Follows limits room run decoder) (count : Nat)
    (done : List α) :
    Follows limits room (collect run count done) (do return done.reverse ++ (← Decoder.replicate count decoder)) := by
  induction count generalizing done with
  | zero =>
    rw [Decoder.replicate_zero, pure_bind, List.append_nil]
    exact follows_pure _
  | succ count ih =>
    rw [Decoder.replicate_succ, bind_assoc]
    refine follows.bind fun value => ?_
    simpa [bind_assoc] using ih (value :: done)

theorem entry {key : Run α} {value : Run β} {keys : Decoder α} {values : Decoder β}
    (one : Follows limits room key keys) (two : Follows limits room value values) :
    Follows limits room (entry key value) (Decoder.entry keys values) :=
  (one.labeled "key").bind fun _ => (two.labeled "value").bind fun _ => follows_pure _

section Entries

variable {k : Ty} {entry : Run (k.Value × β)} {decoder : Decoder (k.Value × β)}

theorem fill (follows : Follows limits room entry decoder) (shape : MapShape) (count : Nat)
    (map : List (k.Value × β)) :
    Follows limits room (fill shape k entry count map) (decoder.fill shape k count map) := by
  induction count generalizing map with
  | zero => exact follows_pure map
  | succ count ih => exact follows.bind fun first => ih _

theorem fillInto (follows : Follows limits room entry decoder) (shape : MapShape) (count : Nat)
    (map : List (k.Value × β)) {source : Source} (under : source.limits = limits) :
    let ((entries, failure), after) := decoder.attempts count source
    fillInto shape k entry count map source =
        some ((failure.elim (.ok ()) .error, shape.insertAll k map entries), after) ∨
      fillInto shape k entry count map source = none ∧ ¬room := by
  induction count generalizing map source with
  | zero => exact .inl rfl
  | succ count ih =>
    rw [Decoder.attempts_succ, Run.fillInto]
    rcases follows source under with ⟨ran, kept⟩ | ⟨ended, unfit⟩
    · rw [outcome] at ran
      rw [ran]
      rcases read : decoder.read source with ⟨error | first, after⟩
      · exact .inl rfl
      · rw [read] at kept
        exact ih (shape.insert k map first) kept
    · rw [outcome] at ended
      rw [ended]
      exact .inr ⟨rfl, unfit⟩

end Entries

end Follows

theorem outcome_fill {shape : MapShape} {k : Ty} (entry : Run (k.Value × β)) (count : Nat) (map : List (k.Value × β))
    (source : Source) :
    (fill shape k entry count map).outcome source =
      (fillInto shape k entry count map source).map fun run => (run.1.1.map fun _ => run.1.2, run.2) := by
  induction count generalizing map source with
  | zero => rfl
  | succ count ih =>
    rw [fill, fillInto, outcome_bind, outcome]
    rcases entry source with _ | ⟨error | first, after⟩
    · rfl
    · rfl
    · exact ih _ _

end Run

/-! ### Runs that do not return -/

namespace Run

variable {α β : Type}

/-- There is room for what is asked for behind the count at the front of the source. -/
def Granted (ask : Nat → Nat) (source : Source) : Prop :=
  ∀ count after, Decoder.length.read source = (.ok count, after) →
    ask (source.limits.prealloc (.ofNat count)).toNat ≤ Layout.limit

/-- One of the parts that are counted at the front of the source is read by a run that does not return. -/
def Stuck (part : Run α) (source : Source) : Prop :=
  ∃ count after, Decoder.length.read source = (.ok count, after) ∧ (collect part count []).outcome after = none

/-- A run that comes to `result`, unless it `ends` without returning. -/
inductive ComesTo {γ : Type} (result : γ) (ends : Prop) : Option γ → Prop
  | ended (ended : ends) : ComesTo result ends none
  | returned (goes : ¬ends) : ComesTo result ends (some result)

theorem comesTo_of_cases {γ : Type} {result : γ} {ends room : Prop} {outcome : Option γ}
    (cases : outcome = some result ∨ outcome = none ∧ ¬room) (iff : outcome = none ↔ ends) :
    ComesTo result ends outcome := by
  rcases cases with rfl | ⟨rfl, -⟩
  · exact .returned fun ended => nomatch iff.mpr ended
  · exact .ended (iff.mp rfl)

theorem bind_of_eq_none_iff (first : Run α) (next : α → Decoder β) (source : Source) :
    (first >>= fun value => of (next value)).outcome source = none ↔ first.outcome source = none := by
  rw [outcome_bind]
  rcases first.outcome source with _ | ⟨error | value, after⟩
  · exact iff_of_true rfl rfl
  · exact iff_of_false nofun nofun
  · exact iff_of_false nofun nofun

/-- What asks for room behind a count does not return where there is none, or where what follows does not. -/
theorem counted_eq_none_iff (ask : Nat → Nat) (rest : Nat → Run α) (source : Source) :
    (do let count ← of Decoder.length; reserve ask count; rest count : Run α).outcome source = none ↔
      ¬Granted ask source ∨
        ∃ count after, Decoder.length.read source = (.ok count, after) ∧ (rest count).outcome after = none := by
  have kept := Decoder.built_length.limits_read source
  rw [outcome_bind, outcome, of]
  rcases read : Decoder.length.read source with ⟨error | count, after⟩
  · refine iff_of_false nofun ?_
    rintro (refused | ⟨count, between, counted, -⟩)
    · exact refused fun count between counted => by rw [read] at counted; cases counted
    · cases counted
  · rw [read] at kept
    have granted_iff : Granted ask source ↔ ask (after.limits.prealloc (.ofNat count)).toNat ≤ Layout.limit := by
      rw [kept]
      constructor
      · exact fun granted => granted count after read
      · intro fits count' after' counted
        rw [read] at counted
        cases counted
        exact fits
    have rest_iff : (∃ count' after', ((.ok count, after) : Except DecodeError Nat × Source) = (.ok count', after') ∧
        (rest count').outcome after' = none) ↔ (rest count).outcome after = none := by
      constructor
      · rintro ⟨_, _, ⟨⟩, ended⟩
        exact ended
      · exact fun ended => ⟨count, after, rfl, ended⟩
    dsimp only
    rw [granted_iff, rest_iff, outcome_bind, outcome, reserve]
    by_cases fits : ask (after.limits.prealloc (.ofNat count)).toNat ≤ Layout.limit
    · rw [if_pos fits]
      exact (or_iff_right (not_not_intro fits)).symm
    · rw [if_neg fits]
      exact iff_of_true rfl (.inl fits)

/-- Entries that are put into a map as they come are parts like others. -/
theorem fill_eq_none_iff {shape : MapShape} {k : Ty} (entry : Run (k.Value × β)) (count : Nat)
    (map done : List (k.Value × β)) (source : Source) :
    (fill shape k entry count map).outcome source = none ↔ (collect entry count done).outcome source = none := by
  induction count generalizing map done source with
  | zero => exact iff_of_false nofun nofun
  | succ count ih =>
    rw [fill, collect, outcome_bind, outcome_bind]
    rcases entry.outcome source with _ | ⟨error | first, after⟩
    · exact Iff.rfl
    · exact iff_of_false nofun nofun
    · exact ih _ _ _

theorem fillInto_eq_none_iff {shape : MapShape} {k : Ty} (entry : Run (k.Value × β)) (count : Nat)
    (map done : List (k.Value × β)) (source : Source) :
    fillInto shape k entry count map source = none ↔ (collect entry count done).outcome source = none := by
  rw [← fill_eq_none_iff entry count map done source, outcome_fill, Option.map_eq_none_iff]

/-- What a run comes to, whatever its error. -/
def progress (run : Run α) (source : Source) : Option (Option α × Source) :=
  (run.outcome source).map fun (result, after) => (result.toOption, after)

theorem progress_bind (first : Run α) (second : α → Run β) (source : Source) :
    (first >>= second).progress source =
      match first.progress source with
      | none => none
      | some (none, after) => some (none, after)
      | some (some value, after) => (second value).progress after := by
  rw [progress, progress, outcome_bind]
  rcases first.outcome source with _ | ⟨error | value, after⟩ <;> rfl

theorem progress_labeled (label : String) (run : Run α) (source : Source) :
    (run.labeled label).progress source = run.progress source := by
  rw [progress, progress, outcome, outcome, labeled]
  rcases run source with _ | ⟨error | value, after⟩ <;> rfl

/-- Parts that differ in their errors only are stuck together. -/
theorem stuck_congr {one other : Run α} (same : ∀ source, one.progress source = other.progress source)
    (source : Source) : Stuck one source ↔ Stuck other source := by
  have collected (count : Nat) : ∀ done source,
      (collect one count done).progress source = (collect other count done).progress source := by
    induction count with
    | zero => exact fun done source => rfl
    | succ count ih =>
      intro done source
      rw [collect, collect, progress_bind, progress_bind, same]
      rcases other.progress source with _ | ⟨_ | value, after⟩
      · rfl
      · rfl
      · exact ih _ _
  have none_iff (run : Run (List α)) (source : Source) : run.outcome source = none ↔ run.progress source = none :=
    Option.map_eq_none_iff.symm
  simp only [Stuck, none_iff, collected]

end Run

/-! ### Codecs -/

namespace Codec

variable {t k v : Ty} (layout : Layout) (limits : DecodeLimits)

/-- Under the limits, every container and payload may have what it asks for. -/
def Roomy : {t : Ty} → Codec t → Prop
  | _, .text => limits.Grants id
  | _, .bytes => limits.Grants id
  | _, .derived _ codec _ _ => Roomy codec
  | _, .terse _ _ codec => Roomy codec
  | .seq _ t, .seq shape codec => limits.Grants (layout.elements shape t) ∧ Roomy codec
  | .map _ t u, .map shape k v => limits.Grants (layout.entries shape t u) ∧ Roomy k ∧ Roomy v
  | _, .option codec => Roomy codec
  | _, .pair a b => Roomy a ∧ Roomy b
  | _, .triple a b c => Roomy a ∧ Roomy b ∧ Roomy c
  | _, _ => True

/-- Every codec runs as it decodes. -/
theorem follows_run (codec : Codec t) :
    Run.Follows limits (codec.Roomy layout limits) (codec.run layout) codec.decode := by
  induction codec with
  | int sign width => exact Run.follows_of (Decoder.built_word width)
  | float p => exact Run.follows_of (Decoder.built_word p.width)
  | bool => exact Run.follows_of Decoder.built_flag
  | unit => exact Run.follows_pure ()
  | never => exact Run.follows_of (.throw .uninhabited)
  | text => exact .text id
  | bytes => exact .counted fun count within => .block within id
  | compact name objection => exact Run.follows_of Decoder.built_compact
  | derived name codec toBase fromBase ih =>
    exact ih.bind fun base => Run.follows_of (Decoder.built_mapped (fromBase base))
  | terse name objection codec ih => exact ih
  | @seq shape element codec ih =>
    refine .counted fun count within => .reserve within And.left ?_
    refine Run.Follows.bind ?_ fun elements => Run.follows_of (Decoder.built_gathered shape element elements)
    simpa using (ih.part And.right).collect count []
  | map shape keyCodec valueCodec ihk ihv =>
    refine .counted fun count within => .reserve within And.left (.fill (.entry ?_ ?_) shape count [])
    · exact ihk.part fun room => room.2.1
    · exact ihv.part fun room => room.2.2
  | option codec ih =>
    refine (Run.follows_of Decoder.built_flag).bind fun there => ?_
    cases there with
    | false => exact Run.follows_pure none
    | true => exact (ih.labeled "value").bind fun inner => Run.follows_pure (some inner)
  | pair first second iha ihb =>
    refine ((iha.part And.left).labeled "first").bind fun x => ?_
    exact ((ihb.part And.right).labeled "second").bind fun y => Run.follows_pure (x, y)
  | triple first second third iha ihb ihc =>
    refine ((iha.part And.left).labeled "first").bind fun x => ?_
    refine ((ihb.part fun room => room.2.1).labeled "second").bind fun y => ?_
    exact ((ihc.part fun room => room.2.2).labeled "third").bind fun z => Run.follows_pure (x, y, z)

/-- A run comes to what is read, or it does not return and there is no room. -/
theorem run_cases (codec : Codec t) (source : Source) :
    (codec.run layout).outcome source = some (codec.read source) ∨
      (codec.run layout).outcome source = none ∧ ¬codec.Roomy layout source.limits :=
  (follows_run layout source.limits codec source rfl).imp_left And.left

theorem read_of_run {codec : Codec t} {layout : Layout} {source : Source}
    {outcome : Except DecodeError t.Value × Source}
    (ran : (codec.run layout).outcome source = some outcome) :
    codec.read source = outcome := by
  rcases run_cases layout codec source with same | ⟨ended, -⟩
  · exact Option.some.inj (same.symm.trans ran)
  · rw [ended] at ran
    cases ran

theorem comesTo_seq (shape : SeqShape) (codec : Codec t) (source : Source) :
    Run.ComesTo ((Codec.seq shape codec).read source)
      (¬Run.Granted (layout.elements shape t) source ∨ Run.Stuck (codec.run layout) source)
      (((Codec.seq shape codec).run layout).outcome source) := by
  refine Run.comesTo_of_cases (run_cases layout _ source) ?_
  rw [run, Run.counted_eq_none_iff]
  simp only [Run.bind_of_eq_none_iff, Run.Stuck]

section Maps

variable (shape : MapShape) (key : Codec k) (value : Codec v)

theorem comesTo_map (source : Source) :
    Run.ComesTo ((Codec.map shape key value).read source)
      (¬Run.Granted (layout.entries shape k v) source ∨ Run.Stuck (.entry (key.run layout) (value.run layout)) source)
      (((Codec.map shape key value).run layout).outcome source) := by
  refine Run.comesTo_of_cases (run_cases layout _ source) ?_
  rw [run, Run.counted_eq_none_iff]
  simp only [Run.fill_eq_none_iff _ _ [] [], Run.Stuck]

/-- So does a run that reads a map into another one, which needs room for what the entries hold only. -/
theorem runInto_cases (target : List (k.Value × v.Value)) (source : Source) :
    runInto layout shape key value target source = some (readInto shape key value target source) ∨
      runInto layout shape key value target source = none ∧
        ¬(key.Roomy layout source.limits ∧ value.Roomy layout source.limits) := by
  have kept := Decoder.built_length.limits_read source
  rw [runInto, readInto, Decoder.entriesInto]
  rcases read : Decoder.length.read source with ⟨error | count, after⟩
  · exact .inl rfl
  · rw [read] at kept
    have entries : Run.Follows source.limits (key.Roomy layout source.limits ∧ value.Roomy layout source.limits)
        (Run.entry (run layout key) (run layout value)) (Decoder.entry key.decode value.decode) :=
      .entry ((follows_run layout _ key).part And.left) ((follows_run layout _ value).part And.right)
    have filled := entries.fillInto shape count target kept
    dsimp only at filled ⊢
    generalize (Decoder.entry key.decode value.decode).attempts count after = outcome at filled
    obtain ⟨⟨entries, failure⟩, last⟩ := outcome
    cases failure <;> exact filled

theorem comesTo_runInto (target : List (k.Value × v.Value)) (source : Source) :
    Run.ComesTo (readInto shape key value target source)
      (Run.Stuck (.entry (key.run layout) (value.run layout)) source)
      (runInto layout shape key value target source) := by
  refine Run.comesTo_of_cases (runInto_cases layout shape key value target source) ?_
  rw [runInto, Run.Stuck]
  rcases Decoder.length.read source with ⟨error | count, after⟩
  · exact iff_of_false nofun fun ⟨_, _, counted, _⟩ => nomatch counted
  · rw [Run.fillInto_eq_none_iff _ count target []]
    constructor
    · exact fun ended => ⟨count, after, rfl, ended⟩
    · rintro ⟨_, _, ⟨⟩, ended⟩
      exact ended

end Maps

end Codec
end TypedWire
